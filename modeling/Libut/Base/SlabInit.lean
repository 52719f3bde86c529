import Libut.Base.SlabInv

/-!
Where the nodes of the slab allocator come from (`slab_create` and `slab_init`
in `base/slab.c`). A node fits its page if all its items end on it. Nodes of
`slab_create` do, but sizes that are rounded up to 0 are divided by. The
bootstrap slab for the nodes themselves takes the number of its items from the
size of the struct and places them at distances rounded up from it, so that the
last items are behind the page.
-/

namespace Libut.Base

open Machine

section Layout

structure Field where
  size : Nat
  align : Nat

def Field.int : Field := ⟨4, 4⟩

def Field.long : Field := ⟨8, 8⟩

def Field.pointer : Field := ⟨8, 8⟩

/-- `struct list_node`, `struct list_head` -/
def Field.list : Field := ⟨16, 8⟩

def roundUp (x align : Nat) : Nat := (x + align - 1) / align * align

/-- Each field goes to the next place of its alignment; the end is padded to
the alignment of the struct. -/
def structSize (fields : List Field) : Nat :=
  roundUp (fields.foldl (fun off f => roundUp off f.align + f.size) 0)
    (fields.foldl (fun a f => max a f.align) 1)

/-- `size`, `numa_node`, `offset`, `flags`, `nr_elems`, `page_lock`, `pg_off`,
`cur_pg`, `full_list`, `partial_list`, `nr_pages` -/
def sizeofSlabNode : Nat :=
  structSize [.long, .int, .int, .int, .int, .int, .long, .pointer, .list,
    .list, .int]

/-- `flags`, `ref`, `next`, `link`, `snode`, `offset`, `paddr`,
`item_count` -/
def sizeofPage : Nat :=
  structSize [.int, .int, .pointer, .list, .pointer, .long, .long, .long]

/-- `TCACHE_MIN_ITEM_SIZE`, the size of `struct tcache_hdr` -/
def tcacheMinItemSize : Nat := structSize [.pointer, .pointer]

end Layout

def smpageMetaLen : Nat := pgsize2MB / pgsize4KB * sizeofPage

/-- The node of `node_slab` in `slab_init`. -/
def nodeSlab : SlabNode where
  size := (alignUp (BitVec.ofNat 64 sizeofSlabNode)
    (BitVec.ofNat 64 tcacheMinItemSize)).toNat
  offset := 0
  lgpage := false
  pages := false
  nrElems := pgsize4KB / sizeofSlabNode
  size_pos := by decide
  size_word := by decide
  offset_word := zero_word

/-- The node of `smpage_slab` in `slab_init`. -/
def smpageSlab : SlabNode where
  size := pgsize4KB
  offset := smpageMetaLen
  lgpage := true
  pages := true
  nrElems := (pgsize2MB - smpageMetaLen) / pgsize4KB
  size_pos := by decide
  size_word := by decide
  offset_word := by decide

inductive SlabSetup
  /-- `slab_create` -/
  | create (size : BitVec 64) (flags : BitVec 32)
  | nodeSlab
  | smpageSlab

/-- The node that is set up. Of the flags of `slab_create`, bits 0 to 2 have a
meaning. -/
def SlabSetup.node : SlabSetup → Except SlabError SlabNode
  | .create size flags =>
    slabCreate size (flags.getLsbD 1) (flags.getLsbD 0) (flags.getLsbD 2)
  | .nodeSlab => .ok Base.nodeSlab
  | .smpageSlab => .ok Base.smpageSlab

/-- The geometry of what is set up: nothing is divided by zero, the items of
the node are on the page and more than can be free on a full page, and so are
all items that are handed out. -/
structure SlabSetup.Sound (setup : SlabSetup) : Prop where
  divides : setup.node ≠ .error .divideByZero
  fits : ∀ n, setup.node = .ok n → n.offset + n.nrElems * n.size ≤ n.pgsize
  many : ∀ n, setup.node = .ok n → slabPartialThresh < n.nrElems
  inside : ∀ n, setup.node = .ok n → ∀ s, (slabSystem n).Reach anyStep s →
    ∀ item ∈ s.live, pageToAddr n (addrToPage n item) ≤ item ∧
      item + n.size ≤ pageToAddr n (addrToPage n item) + n.pgsize

def SlabSetup.usable : SlabSetup → Prop
  | .create size _ => size ≠ 0 ∧ size.toNat ≤ 2 ^ 64 - 64
  | .nodeSlab => False
  | .smpageSlab => True

section Create

variable {size : BitVec 64}

theorem or_low_bits (k y : Nat) :
    y ||| (2 ^ k - 1) = y / 2 ^ k * 2 ^ k + (2 ^ k - 1) := by
  have hpos : 0 < 2 ^ k := Nat.two_pow_pos k
  have hlow : (y ||| (2 ^ k - 1)) % 2 ^ k = 2 ^ k - 1 := by
    apply Nat.eq_of_testBit_eq
    intro i
    rw [Nat.testBit_mod_two_pow, Nat.testBit_or, Nat.testBit_two_pow_sub_one]
    cases hi : decide (i < k) <;> simp
  have hhigh : (y ||| (2 ^ k - 1)) / 2 ^ k = y / 2 ^ k := by
    rw [Nat.or_div_two_pow, Nat.div_eq_of_lt (Nat.sub_lt hpos Nat.one_pos)]
    exact Nat.or_zero _
  have hsplit := Nat.div_add_mod (y ||| (2 ^ k - 1)) (2 ^ k)
  rw [hlow, hhigh, Nat.mul_comm] at hsplit
  exact hsplit.symm

theorem alignUp_toNat {k : Nat} {x : BitVec 64} (hk : k < 64)
    (hpos : 0 < x.toNat) (hle : x.toNat + 2 ^ k ≤ 2 ^ 64) :
    (alignUp x (BitVec.ofNat 64 (2 ^ k))).toNat = roundUp x.toNat (2 ^ k) := by
  have hpow : (2 : Nat) ^ k < 2 ^ 64 := Nat.pow_lt_pow_right (by decide) hk
  have hone : 0 < 2 ^ k := Nat.two_pow_pos k
  have hmask : (BitVec.ofNat 64 (2 ^ k) - 1).toNat = 2 ^ k - 1 := by
    rw [BitVec.toNat_sub_of_le]
    · rw [BitVec.toNat_ofNat, Nat.mod_eq_of_lt hpow]
      rfl
    · rw [BitVec.le_def, BitVec.toNat_ofNat, Nat.mod_eq_of_lt hpow]
      exact hone
  have hsub : (x - 1).toNat = x.toNat - 1 := by bv_omega
  have hround : (x.toNat + 2 ^ k - 1) / 2 ^ k =
      (x.toNat - 1) / 2 ^ k + 1 := by
    rw [show x.toNat + 2 ^ k - 1 = x.toNat - 1 + 2 ^ k by omega,
      Nat.add_div_right _ hone]
  have hdiv := Nat.div_mul_le_self (x.toNat - 1) (2 ^ k)
  rw [alignUp, BitVec.toNat_add, BitVec.toNat_or, hmask, hsub, or_low_bits,
    roundUp, hround, Nat.succ_mul]
  change (_ + 1) % 2 ^ 64 = _
  have hbound : (x.toNat - 1) / 2 ^ k * 2 ^ k + (2 ^ k - 1) + 1 < 2 ^ 64 := by
    omega
  rw [Nat.mod_eq_of_lt hbound]
  omega

theorem alignUp_eq_zero :
    (alignUp size 64).toNat = 0 ↔ size = 0 ∨ 2 ^ 64 - 64 < size.toNat := by
  have hor : ((size - 1) ||| (64 - 1)).toNat =
      (size - 1).toNat / 64 * 64 + 63 := by
    rw [BitVec.toNat_or]
    exact or_low_bits 6 _
  have hzero : size = 0 ↔ size.toNat = 0 := by
    rw [← BitVec.toNat_inj]
    rfl
  have hsub : (size - 1).toNat = (2 ^ 64 - 1 + size.toNat) % 2 ^ 64 :=
    BitVec.toNat_sub size 1
  have hlt := size.isLt
  rw [alignUp, BitVec.toNat_add, hor, hzero, hsub]
  change ((_ / 64 * 64 + 63) + 1) % 2 ^ 64 = 0 ↔ _
  omega

theorem slabCreateSized_divides {size : Nat} {hword : 8 ∣ size}
    {lgpage pages : Bool} :
    slabCreateSized size hword lgpage pages = .error .divideByZero ↔
      size = 0 := by
  unfold slabCreateSized
  split_ifs with hzero
  · exact iff_of_true rfl hzero
  · exact iff_of_false (by simp) hzero

theorem slabCreate_divides {falseOkay lgpage pages : Bool} :
    slabCreate size falseOkay lgpage pages = .error .divideByZero ↔
      size = 0 ∨ 2 ^ 64 - 64 < size.toNat := by
  have halign : (if falseOkay then wordSize else cacheLineSize) = 64 :=
    ite_self _
  rw [← alignUp_eq_zero]
  unfold slabCreate
  simp only [halign]
  split
  · exact iff_of_false (by simp) (by omega)
  · exact slabCreateSized_divides

end Create

theorem live_inside {n : SlabNode} (hmany : slabPartialThresh < n.nrElems)
    (hfit : n.Fits) {s : SlabState} (hs : (slabSystem n).Reach anyStep s)
    {item : Nat} (hitem : item ∈ s.live) :
    pageToAddr n (addrToPage n item) ≤ item ∧
      item + n.size ≤ pageToAddr n (addrToPage n item) + n.pgsize := by
  obtain ⟨⟨full, part, free, hpages, -⟩, -⟩ :=
    slabInv_reach hmany (.inl hfit) hs
  exact (hpages.on_page hfit hitem).2

theorem SlabSetup.sound_of_fits {setup : SlabSetup}
    (hdiv : setup.node ≠ .error .divideByZero)
    (hfits : ∀ n, setup.node = .ok n → slabPartialThresh < n.nrElems ∧
        n.nrElems * n.size + n.offset ≤ n.pgsize) : setup.Sound where
  divides := hdiv
  fits n hn := by
    have hfit := (hfits n hn).2
    omega
  many n hn := (hfits n hn).1
  inside n hn s hs item hitem :=
    live_inside (hfits n hn).1 (hfits n hn).2 hs hitem

/-- The geometry is right unless the slab is `node_slab`, or `slab_create` is
given a size that is rounded up to 0. -/
theorem slab_geometry_iff (setup : SlabSetup) : setup.Sound ↔ setup.usable := by
  cases setup with
  | create size flags =>
    rw [SlabSetup.usable]
    constructor
    · intro hsound
      have hdiv := hsound.divides
      rw [SlabSetup.node, Ne, slabCreate_divides, not_or] at hdiv
      exact ⟨hdiv.1, Nat.le_of_not_lt hdiv.2⟩
    · rintro ⟨hzero, hwrap⟩
      apply SlabSetup.sound_of_fits
      · rw [SlabSetup.node, Ne, slabCreate_divides, not_or]
        exact ⟨hzero, Nat.not_lt_of_le hwrap⟩
      · intro n hn
        exact slabCreate_fits hn
  | nodeSlab =>
    apply iff_of_false _ id
    intro hsound
    exact absurd (hsound.fits nodeSlab rfl) (by decide)
  | smpageSlab =>
    apply iff_of_true _ trivial
    apply SlabSetup.sound_of_fits
    · simp [SlabSetup.node]
    · intro n hn
      cases hn
      decide

/-- A page of `node_slab` and as many items of it as are handed out. -/
def nodeSlabRun : List SlabAct :=
  .alloc (some 1) :: List.replicate 42 (.alloc none)

theorem nodeSlabRun_isSome :
    ((slabSystem nodeSlab).exec emptySlab nodeSlabRun).isSome = true := by
  with_unfolding_all decide

/-- `node_slab` counts 46 items of 96 bytes on a page of 4096. Number 43 ends
behind the page, and number 44 would start there. Sizes 0 and 2^64 - 1 are
divided by after they were rounded up to 0. -/
theorem node_slab_overruns :
    let s := ((slabSystem nodeSlab).exec emptySlab nodeSlabRun).get
      nodeSlabRun_isSome
    (nodeSlab.nrElems = 46 ∧ nodeSlab.size = 96 ∧ nodeSlab.pgsize = 4096) ∧
      (s.live.head? = some (pageToAddr nodeSlab 1 + 4032) ∧
        (slabNodeAlloc nodeSlab s none).toOption.isNone) ∧
      (SlabSetup.create 0 0).node = .error .divideByZero ∧
      (SlabSetup.create (BitVec.allOnes 64) 0).node =
        .error .divideByZero := by
  refine ⟨by decide, ?_, ?_, ?_⟩
  · with_unfolding_all decide
  · rw [SlabSetup.node, slabCreate_divides]
    exact .inl rfl
  · rw [SlabSetup.node, slabCreate_divides]
    exact .inr (by decide)

end Libut.Base
