import Libut.Base.Bitmap
import Libut.Machine.Checked

/-!
The search in a bitmap (`base/bitmap.c`) with the types of the source: `pos`,
`nbits` and `idx` are of type `int`, and `idx += BITS_PER_LONG` is computed as
an `unsigned long` and converted. A bitmap has `BITMAP_LONG_SIZE(nbits)` words;
a read outside of them, and the overflow of a sum of two `int`s, have no
result.

The search is that of `Libut.Base.Bitmap` up to the last word that an `int` can
number. If it goes on after this word, `idx` becomes `INT_MIN`, which is less
than `nbits`, and the next read is far outside of the bitmap.
-/

namespace Libut.Base.Ints

open Machine

def toInt (n : Int) : Int := (n + 2 ^ 31) % 2 ^ 32 - 2 ^ 31

def toUlong (n : Int) : Nat := (n % 2 ^ 64).toNat

/-- What is left to search: nothing from a negative number on, as no word has
such an index. -/
def scanLeft (idx : Int) : Nat :=
  if idx < -2 ^ 31 then 2 ^ 31 + 1
  else if idx < 0 then 0
  else (2 ^ 31 - idx).toNat

theorem scanLeft_next {nbits : Nat} {idx : Int} (hn : nbits < intLimit)
    (hidx : idx < nbits)
    (hin : toUlong idx / bitsPerLong < bitmapLongSize nbits) :
    scanLeft (toInt (idx + bitsPerLong)) < scanLeft idx := by
  simp only [intLimit, bitmapLongSize, toUlong, bitsPerLong] at hn hin
  have hlow : -2 ^ 31 ≤ toInt (idx + bitsPerLong) := by
    simp only [toInt]
    omega
  have hnext : toInt (idx + bitsPerLong) < 0 ∨
      idx < -2 ^ 31 ∧ toInt (idx + bitsPerLong) < 2 ^ 31 ∨
      toInt (idx + bitsPerLong) = idx + 64 := by
    simp only [toInt, bitsPerLong]
    omega
  unfold scanLeft
  split_ifs <;> omega

/-- The loop of `bitmap_find_next`. -/
def bitmapScan (bits : Bitmap) (nbits : Fin intLimit) (invert : Bool)
    (idx : Int) (mask : BitVec 64) : Option Nat :=
  if idx < nbits then
    -- `bits[BITMAP_POS_IDX(idx)]`
    if toUlong idx / bitsPerLong < bitmapLongSize nbits then
      let val := bitmapWord bits invert (toUlong idx) &&& mask
      if val ≠ 0 then
        if idx + ffsl val < intLimit then
          some (min (idx + ffsl val - 1) nbits).toNat
        else none
      else bitmapScan bits nbits invert (toInt (idx + bitsPerLong)) (~~~0)
    else none
  else some nbits
termination_by scanLeft idx
decreasing_by
  rename_i hidx hin _
  exact scanLeft_next nbits.isLt hidx hin

/-- `bitmap_find_next`, from a position on that is not negative -/
def bitmapFindNext (bits : Bitmap) (nbits pos : Fin intLimit) (invert : Bool) :
    Option Nat :=
  bitmapScan bits nbits invert (pos / bitsPerLong * bitsPerLong : Nat)
    (~~~((1#64 <<< (pos % bitsPerLong : Nat)) - 1))

def bitmapFindNextCleared (bits : Bitmap) (nbits pos : Fin intLimit) :
    Option Nat :=
  bitmapFindNext bits nbits pos true

def bitmapFindNextSet (bits : Bitmap) (nbits pos : Fin intLimit) :
    Option Nat :=
  bitmapFindNext bits nbits pos false

/-- A search from `lo` on comes to its end: there is no word behind those that
an `int` can number, or a bit is found before the last such position. -/
def SearchEnds (bits : Bitmap) (nbits : Nat) (invert : Bool) (lo : Nat) :
    Prop :=
  nbits ≤ intLimit - bitsPerLong ∨
    ∃ x, lo ≤ x ∧ x < intLimit - 1 ∧ sought bits invert x = true

section Scan

variable {bits : Bitmap} {nbits : Fin intLimit} {invert : Bool} {idx lo : Nat}
  {mask : BitVec 64}

theorem bitmapScan_ge (hidx : nbits ≤ idx) :
    bitmapScan bits nbits invert idx mask = some (nbits : Nat) := by
  rw [bitmapScan, if_neg (by omega)]

theorem toUlong_nat (hidx : idx < nbits) : toUlong idx = idx := by
  have hn := nbits.isLt
  simp only [intLimit] at hn
  simp only [toUlong]
  omega

theorem word_in (hidx : idx < nbits) :
    idx / bitsPerLong < bitmapLongSize nbits := by
  simp only [bitmapLongSize, bitsPerLong]
  omega

theorem bitmapScan_found (hidx : idx < nbits)
    (hval : bitmapWord bits invert idx &&& mask ≠ 0) :
    bitmapScan bits nbits invert idx mask =
      if idx + ffsl (bitmapWord bits invert idx &&& mask) < intLimit then
        some (min (idx + ffsl (bitmapWord bits invert idx &&& mask) - 1) nbits)
      else none := by
  obtain ⟨b, -, hffs, -⟩ := ffsl_spec hval
  rw [bitmapScan, if_pos (by omega), toUlong_nat hidx, if_pos (word_in hidx)]
  simp only [if_pos hval, hffs]
  split_ifs with hbig hbig' hbig'
  · congr 1
    omega
  · omega
  · omega
  · rfl

theorem bitmapScan_next (hidx : idx < nbits)
    (hval : ¬ bitmapWord bits invert idx &&& mask ≠ 0) :
    bitmapScan bits nbits invert idx mask =
      bitmapScan bits nbits invert (toInt (idx + bitsPerLong)) (~~~0) := by
  rw [bitmapScan, if_pos (by omega), toUlong_nat hidx, if_pos (word_in hidx)]
  simp only [if_neg hval]

/-- After the last word the index is negative, and is read at. -/
theorem bitmapScan_wraps (hlast : intLimit ≤ idx + bitsPerLong)
    (hidx : idx < nbits) :
    bitmapScan bits nbits invert (toInt (idx + bitsPerLong)) mask = none := by
  have hn := nbits.isLt
  have hneg : toInt (idx + bitsPerLong) < 0 ∧
      -2 ^ 31 ≤ toInt (idx + bitsPerLong) := by
    simp only [intLimit, bitsPerLong] at hn hlast
    simp only [toInt, bitsPerLong]
    omega
  rw [bitmapScan, if_pos (by omega), if_neg]
  simp only [intLimit] at hn
  simp only [bitmapLongSize, toUlong, bitsPerLong] at hneg ⊢
  omega

theorem SearchEnds.imp {bits' : Bitmap} {hi : Nat}
    (h : SearchEnds bits nbits invert lo)
    (himp : ∀ x, lo ≤ x → sought bits invert x = true →
      hi ≤ x ∧ sought bits' invert x = true) :
    SearchEnds bits' nbits invert hi := by
  rcases h with hsmall | ⟨x, hx, hxlimit, hbit⟩
  · exact .inl hsmall
  · obtain ⟨hx', hbit'⟩ := himp x hx hbit
    exact .inr ⟨x, hx', hxlimit, hbit'⟩

theorem SearchEnds.mono {hi : Nat} (h : SearchEnds bits nbits invert hi)
    (hle : lo ≤ hi) : SearchEnds bits nbits invert lo :=
  h.imp fun _ hx hbit => ⟨hle.trans hx, hbit⟩

theorem searchEnds_skip {hi : Nat} (hle : lo ≤ hi)
    (hempty : ∀ x, lo ≤ x → x < hi → sought bits invert x = false) :
    SearchEnds bits nbits invert lo ↔ SearchEnds bits nbits invert hi := by
  refine ⟨fun h => h.imp fun x hx hbit => ⟨?_, hbit⟩, fun h => h.mono hle⟩
  by_contra hlt
  rw [hempty x hx (Nat.not_le.mp hlt)] at hbit
  cases hbit

theorem bitmapScan_eq (hidx : idx % bitsPerLong = 0) (hlimit : idx < intLimit)
    (hlo : idx ≤ lo) (hword : lo ≤ idx + bitsPerLong)
    (hmask : ∀ b < 64, mask.getLsbD b = decide (lo ≤ idx + b)) :
    (SearchEnds bits nbits invert lo → bitmapScan bits nbits invert idx mask =
        some (Base.bitmapScan bits nbits invert idx mask)) ∧
      (¬ SearchEnds bits nbits invert lo →
        bitmapScan bits nbits invert idx mask = none) := by
  have hn := nbits.isLt
  have hint : intLimit = 2 ^ 31 := rfl
  have hlong : bitsPerLong = 64 := rfl
  fun_induction Base.bitmapScan bits nbits invert idx mask generalizing lo with
  | case1 idx mask hlt hne =>
    obtain ⟨b, hb, hffs, hset, hclear⟩ := ffsl_spec hne
    rw [word_getLsbD bits invert hidx hmask hb, Bool.and_eq_true,
      decide_eq_true_iff] at hset
    rw [bitmapScan_found hlt hne, hffs]
    constructor
    · intro hends
      rw [if_pos]
      rcases hends with hsmall | ⟨x, hx, hxlimit, hbit⟩
      · omega
      · -- the first bit of the word is not behind the one that ends it
        by_contra hbig
        have hearlier : x - idx < b := by omega
        have hnot := hclear (x - idx) hearlier
        rw [word_getLsbD bits invert hidx hmask (by omega),
          show idx + (x - idx) = x by omega, decide_eq_true hx,
          hbit] at hnot
        cases hnot
    · intro hends
      rw [if_neg]
      intro hsmall
      exact hends (.inr ⟨idx + b, hset.2, by omega, hset.1⟩)
  | case2 idx mask hlt hzero ih =>
    have hempty : ∀ x, lo ≤ x → x < idx + bitsPerLong →
        sought bits invert x = false := by
      intro x hx hxw
      have hbit := word_getLsbD bits invert hidx hmask
        (show x - idx < 64 by omega)
      rw [not_not.mp hzero, show idx + (x - idx) = x by omega,
        decide_eq_true hx, Bool.and_true] at hbit
      simpa using hbit.symm
    rw [bitmapScan_next hlt hzero]
    rcases Nat.lt_or_ge (idx + bitsPerLong) intLimit with hmore | hlast
    · have hnext : toInt (idx + bitsPerLong) = (idx + bitsPerLong : Nat) := by
        simp only [intLimit, bitsPerLong] at hmore
        simp only [toInt, bitsPerLong]
        omega
      have hsame : SearchEnds bits nbits invert lo ↔
          SearchEnds bits nbits invert (idx + bitsPerLong) :=
        searchEnds_skip hword hempty
      have haligned : (idx + bitsPerLong) % bitsPerLong = 0 :=
        (Nat.add_mod_right idx bitsPerLong).trans hidx
      rw [hnext, hsame]
      apply ih haligned hmore (Nat.le_refl _) (Nat.le_add_right _ _)
      intro b hb
      rw [BitVec.getLsbD_not]
      simp [hb]
    · rw [bitmapScan_wraps hlast hlt]
      refine ⟨fun hends => ?_, fun _ => rfl⟩
      rcases hends with hsmall | ⟨x, hx, hxlimit, hbit⟩
      · omega
      · rw [hempty x hx (by omega)] at hbit
        cases hbit
  | case3 idx mask hge =>
    rw [hlong] at hidx
    rw [bitmapScan_ge (by omega)]
    refine ⟨fun _ => rfl, fun hends => ?_⟩
    exact absurd (.inl (by omega)) hends

end Scan

section Search

variable {bits : Bitmap} {nbits pos : Fin intLimit} {invert : Bool}

theorem bitmapFindNext_eq :
    (SearchEnds bits nbits invert pos → bitmapFindNext bits nbits pos invert =
        some (Base.bitmapFindNext bits nbits pos invert)) ∧
      (¬ SearchEnds bits nbits invert pos →
        bitmapFindNext bits nbits pos invert = none) := by
  have hsplit := Nat.div_add_mod pos bitsPerLong
  have hmod : (pos : Nat) % bitsPerLong < bitsPerLong :=
    Nat.mod_lt _ (by decide)
  have hpos := pos.isLt
  rw [Nat.mul_comm] at hsplit
  apply bitmapScan_eq
  case hidx => exact Nat.mul_mod_left _ _
  case hlimit => omega
  case hlo => omega
  case hword => omega
  case hmask =>
    intro b hb
    rw [mask_getLsbD hmod hb, decide_eq_decide]
    omega

theorem bitmapFindNext_first {r : Nat}
    (hr : bitmapFindNext bits nbits pos invert = some r) :
    FirstFrom (sought bits invert) nbits pos r := by
  by_cases hends : SearchEnds bits nbits invert pos
  · rw [bitmapFindNext_eq.1 hends, Option.some.injEq] at hr
    rw [← hr]
    exact Base.bitmapFindNext_first bits nbits pos invert
  · rw [bitmapFindNext_eq.2 hends] at hr
    cases hr

end Search

/-- The body of a loop over a bitmap that is part of its state. It may change
the bits up to the current position. -/
structure LoopBody (σ : Type) where
  bits : σ → Bitmap
  run : Nat → σ → σ
  ahead : ∀ pos s x, pos < x →
    bitmapTest (bits (run pos s)) x = bitmapTest (bits s) x

/-- `bitmap_for_each_set` and `bitmap_for_each_cleared`, with the next search
from `pos` on -/
def bitmapForEach {σ : Type} (body : LoopBody σ) (nbits : Fin intLimit)
    (invert : Bool) (pos : Fin intLimit) (s : σ) : Option σ :=
  match hr : bitmapFindNext (body.bits s) nbits pos invert with
  | none => none
  | some r =>
    if hlt : r < nbits then
      bitmapForEach body nbits invert ⟨r + 1, by omega⟩ (body.run r s)
    else some s
termination_by nbits - pos.val
decreasing_by
  have hpos := (bitmapFindNext_first hr).above hlt
  omega

def soughtBits (bits : Bitmap) (invert : Bool) (lo hi : Nat) : List Nat :=
  (List.range' lo (hi - lo)).filter (sought bits invert)

section Loops

variable {σ : Type} {body : LoopBody σ} {nbits pos : Fin intLimit}
  {invert : Bool} {s : σ} {r : Nat}

/-- What the body does to the bitmap does not matter to the searches after
it. -/
theorem LoopBody.sought_ahead (body : LoopBody σ) (invert : Bool) (s : σ)
    {x : Nat} (hx : r < x) :
    sought (body.bits (body.run r s)) invert x =
      sought (body.bits s) invert x := by
  rw [sought, sought, body.ahead r s x hx]

theorem LoopBody.soughtBits_run :
    soughtBits (body.bits (body.run r s)) invert (r + 1) nbits =
      soughtBits (body.bits s) invert (r + 1) nbits := by
  apply List.filter_congr
  intro x hx
  exact body.sought_ahead invert s (List.mem_range'_1.mp hx).1

theorem LoopBody.searchEnds_run (hr : r < nbits) :
    SearchEnds (body.bits (body.run r s)) nbits invert nbits ↔
      SearchEnds (body.bits s) nbits invert nbits := by
  have hsame : ∀ x, (nbits : Nat) ≤ x →
      sought (body.bits (body.run r s)) invert x =
        sought (body.bits s) invert x :=
    fun x hx => body.sought_ahead invert s (hr.trans_le hx)
  constructor
  · exact fun h => h.imp fun x hx hbit => ⟨hx, hsame x hx ▸ hbit⟩
  · exact fun h => h.imp fun x hx hbit => ⟨hx, (hsame x hx).trans hbit⟩

theorem bitmapForEach_eq (body : LoopBody σ) (invert : Bool) (s : σ)
    (hpos : pos ≤ nbits) :
    (SearchEnds (body.bits s) nbits invert nbits →
      bitmapForEach body nbits invert pos s =
        some ((soughtBits (body.bits s) invert pos nbits).foldl
          (fun s r => body.run r s) s)) ∧
      (¬ SearchEnds (body.bits s) nbits invert nbits →
        bitmapForEach body nbits invert pos s = none) := by
  fun_induction bitmapForEach body nbits invert pos s with
  | case1 pos s hnone =>
    refine ⟨fun hends => ?_, fun _ => rfl⟩
    rw [bitmapFindNext_eq.1 (hends.mono hpos)] at hnone
    cases hnone
  | case2 pos s r hr hlt ih =>
    have hrest := ih (by
      rw [Fin.le_def]
      exact hlt)
    rw [LoopBody.searchEnds_run hlt, LoopBody.soughtBits_run] at hrest
    rw [soughtBits, (bitmapFindNext_first hr).filter_cons hlt]
    exact hrest
  | case3 pos s r hr hge =>
    have hfirst := bitmapFindNext_first hr
    rw [soughtBits, hfirst.filter_nil hge]
    refine ⟨fun _ => rfl, fun hends => ?_⟩
    -- a search that finds nothing goes as far as the last one does
    have hsome : SearchEnds (body.bits s) nbits invert pos := by
      by_contra hnot
      rw [bitmapFindNext_eq.2 hnot] at hr
      cases hr
    have hlast : SearchEnds (body.bits s) nbits invert nbits :=
      (searchEnds_skip hpos fun x hx hxn =>
        hfirst.clear x hx (by omega)).mp hsome
    exact absurd hlast hends

end Loops

def bitmapForEachSet {σ : Type} (body : LoopBody σ) (nbits : Fin intLimit)
    (s : σ) : Option σ :=
  bitmapForEach body nbits false ⟨0, by decide⟩ s

def bitmapForEachCleared {σ : Type} (body : LoopBody σ) (nbits : Fin intLimit)
    (s : σ) : Option σ :=
  bitmapForEach body nbits true ⟨0, by decide⟩ s

def FindsFirst (p : Nat → Bool) (nbits pos : Nat) (result : Option Nat) :
    Prop :=
  ∃ r, result = some r ∧ FirstFrom p nbits pos r

def Visits {σ : Type} (body : LoopBody σ) (positions : List Nat) (s : σ)
    (result : Option σ) : Prop :=
  result = some (positions.foldl (fun s pos => body.run pos s) s)

section Laws

variable {σ : Type} {body : LoopBody σ} {bits : Bitmap}
  {nbits pos : Fin intLimit} {invert : Bool} {s : σ}

theorem findsFirst_iff :
    FindsFirst (sought bits invert) nbits pos
        (bitmapFindNext bits nbits pos invert) ↔
      SearchEnds bits nbits invert pos := by
  constructor
  · rintro ⟨r, hr, -⟩
    by_contra hends
    rw [bitmapFindNext_eq.2 hends] at hr
    cases hr
  · intro hends
    have hr := bitmapFindNext_eq.1 hends
    exact ⟨_, hr, bitmapFindNext_first hr⟩

theorem visits_iff :
    Visits body ((List.range nbits).filter (sought (body.bits s) invert)) s
        (bitmapForEach body nbits invert ⟨0, by decide⟩ s) ↔
      SearchEnds (body.bits s) nbits invert nbits := by
  have hstart : ⟨0, by decide⟩ ≤ nbits := Nat.zero_le _
  have hloop := bitmapForEach_eq body invert s hstart
  rw [soughtBits, Nat.sub_zero, ← List.range_eq_range'] at hloop
  constructor
  · intro hvisits
    by_contra hends
    rw [hloop.2 hends] at hvisits
    cases hvisits
  · exact hloop.1

theorem sought_set (bits : Bitmap) : sought bits false = bitmapTest bits := by
  funext x
  simp [sought]

theorem sought_cleared (bits : Bitmap) :
    sought bits true = fun x => !bitmapTest bits x := by
  funext x
  simp [sought]

end Laws

/-- The searches find the next bit that is set or cleared, and the loops visit
all such bits in ascending order, if and only if the search, or the last search
of the loop, comes to its end. -/
theorem bitmap_search_iff (nbits : Fin intLimit) :
    (∀ (bits : Bitmap) (pos : Fin intLimit),
      (FindsFirst (bitmapTest bits) nbits pos
          (bitmapFindNextSet bits nbits pos) ↔
        SearchEnds bits nbits false pos) ∧
      (FindsFirst (fun x => !bitmapTest bits x) nbits pos
          (bitmapFindNextCleared bits nbits pos) ↔
        SearchEnds bits nbits true pos)) ∧
    ∀ (σ : Type) (body : LoopBody σ) (s : σ),
      (Visits body ((List.range nbits).filter (bitmapTest (body.bits s))) s
          (bitmapForEachSet body nbits s) ↔
        SearchEnds (body.bits s) nbits false nbits) ∧
      (Visits body
          ((List.range nbits).filter fun x => !bitmapTest (body.bits s) x) s
          (bitmapForEachCleared body nbits s) ↔
        SearchEnds (body.bits s) nbits true nbits) := by
  refine ⟨fun bits pos => ⟨?_, ?_⟩, fun σ body s => ⟨?_, ?_⟩⟩
  · rw [← sought_set]
    exact findsFirst_iff
  · rw [← sought_cleared]
    exact findsFirst_iff
  · rw [← sought_set]
    exact visits_iff
  · rw [← sought_cleared]
    exact visits_iff

/-- A body that sets the bit it is called for. The loop of `cores_free_proc` has
such a body: `cores_park_kthread` sets the bit of the thread it parks. -/
def markBody : LoopBody Bitmap where
  bits bits := bits
  run pos bits := bitmapSet bits pos
  ahead pos bits x hx := by
    rw [bitmapTest_set, beq_false_of_ne hx.ne, Bool.false_or]

/-- Bits 1 and 3 are cleared, and the loop visits both. -/
theorem bitmap_search_iff_marking :
    let bits : Bitmap := fun _ => 5
    let nbits : Fin intLimit := ⟨4, by decide⟩
    Visits markBody [1, 3] bits (bitmapForEachCleared markBody nbits bits) := by
  intro bits nbits
  have hends : SearchEnds bits nbits true nbits := .inl (by decide)
  have hbits : (List.range nbits).filter (fun x => !bitmapTest bits x) =
      [1, 3] := by decide
  rw [← hbits]
  exact ((bitmap_search_iff nbits).2 Bitmap markBody bits).2.mpr hends

/-- A bitmap with no bit set, searched in its last word. -/
theorem last_word_overrun :
    let bits : Bitmap := fun _ => 0
    let nbits : Fin intLimit := ⟨2 ^ 31 - 1, by decide⟩
    let pos : Fin intLimit := ⟨2 ^ 31 - 64, by decide⟩
    bitmapFindNextSet bits nbits pos = none ∧
      ¬ FindsFirst (bitmapTest bits) nbits pos
        (bitmapFindNextSet bits nbits pos) := by
  intro bits nbits pos
  have hnone : bitmapFindNextSet bits nbits pos = none := by
    apply bitmapFindNext_eq.2
    rintro (hsmall | ⟨x, -, -, hbit⟩)
    · exact absurd hsmall (by decide)
    · simp [sought, bitmapTest, bits] at hbit
  refine ⟨hnone, ?_⟩
  rintro ⟨r, hr, -⟩
  rw [hnone] at hr
  cases hr

end Libut.Base.Ints
