import Mathlib.Data.List.Perm.Subperm
import Libut.Base.Lrpc
import Libut.Machine.Checked

/-!
A pool of items of one size in a buffer (`base/mempool.c`,
`inc/base/mempool.h`), in the release build, where assertions and the checks
of `DEBUG` are compiled out. `free_items` is an array that holds the free items
from index `allocated` on. A read or a store behind the array, or the overflow
of a loop counter of type `int`, ends a call with a fault. Whether `calloc`
finds memory is a parameter.

`mempool_create` does not reset `capacity`, at which `mempool_populate`
appends. A struct that was in use before, or that is not zero for another
reason, is filled behind the end of its array. Nor does it check that `buf` is
aligned: the pages that items do not straddle are counted from `buf`.
-/

namespace Libut.Base

open Machine

inductive MempoolError
  | EINVAL
  | ENOMEM
  deriving DecidableEq, Repr

inductive MempoolFault
  /-- An access to `free_items` at an index behind its end. -/
  | outside (index : Nat)
  /-- The increment of an `int` that has its largest value. -/
  | overflow
  deriving DecidableEq, Repr

structure Mempool where
  /-- The array that `free_items` points to. -/
  freeItems : List (BitVec 64)
  allocated : BitVec 64
  capacity : BitVec 64
  buf : BitVec 64
  len : BitVec 64
  pgsize : BitVec 64
  itemLen : BitVec 64
  deriving DecidableEq, Repr

namespace Mempool

/-- `m->free_items[index] = item` -/
def store (m : Mempool) (index item : BitVec 64) :
    Except MempoolFault Mempool :=
  if index.toNat < m.freeItems.length then
    .ok { m with freeItems := m.freeItems.set index.toNat item }
  else .error (.outside index.toNat)

theorem store_of_lt {m : Mempool} {index item : BitVec 64}
    (hlt : index.toNat < m.freeItems.length) :
    m.store index item =
      .ok { m with freeItems := m.freeItems.set index.toNat item } :=
  if_pos hlt

theorem store_ok {m m' : Mempool} {index item : BitVec 64}
    (hok : m.store index item = .ok m') :
    index.toNat < m.freeItems.length ∧
      m' = { m with freeItems := m.freeItems.set index.toNat item } := by
  rw [store] at hok
  split_ifs at hok with hlt
  exact ⟨hlt, (Except.ok.inj hok).symm⟩

/-- `m->free_items[m->capacity++] = item` -/
def append (m : Mempool) (item : BitVec 64) : Except MempoolFault Mempool :=
  { m with capacity := m.capacity + 1 }.store m.capacity item

end Mempool

/-- The address of item `j` of page `i`, as `mempool_populate` computes it. -/
def mempoolItem (buf pgsize itemLen : BitVec 64) (i j : Nat) : BitVec 64 :=
  buf + pgsize * BitVec.ofNat 64 i + itemLen * BitVec.ofNat 64 j

/-- The loops of `mempool_populate`. -/
def mempoolFill (buf pgsize itemLen : BitVec 64) (pages perPage : Nat)
    (m : Mempool) : Except MempoolFault Mempool :=
  countFrom intLimit .overflow
    (fun i => countFrom intLimit .overflow
      (fun j m => m.append (mempoolItem buf pgsize itemLen i j)) 0 perPage)
    0 pages m

/-- `mempool_populate`, with whether `calloc` finds memory; the result is
`none` for 0 -/
def mempoolPopulate (m : Mempool) (buf len pgsize itemLen : BitVec 64)
    (hasMemory : Bool) :
    Except MempoolFault (Option MempoolError × Mempool) :=
  let itemsPerPage := pgsize / itemLen
  let nrPages := len / pgsize
  if hasMemory then do
    let zeroed := List.replicate (nrPages * itemsPerPage).toNat 0
    let m' ← mempoolFill buf pgsize itemLen nrPages.toNat itemsPerPage.toNat
      { m with freeItems := zeroed }
    .ok (none, m')
  -- `free_items` is NULL
  else .ok (some .ENOMEM, { m with freeItems := [] })

/-- The arguments that `mempool_create` accepts. -/
def mempoolAccepts (len pgsize itemLen : BitVec 64) : Bool :=
  !(itemLen == 0 || !isPowerOfTwo pgsize || len % pgsize != 0)

def mempoolCreate (m : Mempool) (buf len pgsize itemLen : BitVec 64)
    (hasMemory : Bool) :
    Except MempoolFault (Option MempoolError × Mempool) :=
  if mempoolAccepts len pgsize itemLen then
    mempoolPopulate
      { m with
        allocated := 0, buf := buf, len := len, pgsize := pgsize
        itemLen := itemLen }
      buf len pgsize itemLen hasMemory
  else .ok (some .EINVAL, m)

/-- `mempool_destroy`: the array is gone, and all else stays -/
def mempoolDestroy (m : Mempool) : Mempool := { m with freeItems := [] }

def mempoolAlloc (m : Mempool) : Except MempoolFault (BitVec 64 × Mempool) :=
  if m.capacity ≤ m.allocated then .ok (0, m)
  else
    match m.freeItems[m.allocated.toNat]? with
    | some item => .ok (item, { m with allocated := m.allocated + 1 })
    | none => .error (.outside m.allocated.toNat)

def mempoolFree (m : Mempool) (item : BitVec 64) :
    Except MempoolFault Mempool :=
  { m with allocated := m.allocated - 1 }.store (m.allocated - 1) item

def mempoolTcacheFree (m : Mempool) (items : List (BitVec 64)) :
    Except MempoolFault Mempool :=
  items.foldlM mempoolFree m

/-- The loop of `mempool_tcache_alloc`, and whether it comes to its end. -/
def mempoolGather : Nat → List (BitVec 64) → Mempool →
    Except MempoolFault (Bool × List (BitVec 64) × Mempool)
  | 0, items, m => .ok (true, items, m)
  | left + 1, items, m => do
      let (item, m') ← mempoolAlloc m
      if item = 0 then .ok (false, items, m')
      else mempoolGather left (items ++ [item]) m'

/-- `mempool_tcache_alloc` for `nr` items, with the items it hands out -/
def mempoolTcacheAlloc (m : Mempool) (nr : Nat) :
    Except MempoolFault
      (Option MempoolError × List (BitVec 64) × Mempool) := do
  let (full, items, m') ← mempoolGather nr [] m
  if full then .ok (none, items, m')
  else
    let m'' ← mempoolTcacheFree m' items
    .ok (some .ENOMEM, [], m'')

structure MempoolState where
  pool : Mempool
  out : List (BitVec 64)
  deriving DecidableEq, Repr

inductive MempoolAct
  | alloc
  | free (item : BitVec 64)
  | tcacheAlloc (nr : Nat)
  | tcacheFree (items : List (BitVec 64))
  deriving DecidableEq, Repr

def mempoolNext (s : MempoolState) : MempoolAct → Option MempoolState
  | .alloc =>
    match mempoolAlloc s.pool with
    | .ok (item, m) => some ⟨m, if item = 0 then s.out else item :: s.out⟩
    | .error _ => none
  | .free item =>
    if s.out.contains item then
      match mempoolFree s.pool item with
      | .ok m => some ⟨m, s.out.erase item⟩
      | .error _ => none
    else none
  | .tcacheAlloc nr =>
    match mempoolTcacheAlloc s.pool nr with
    | .ok (_, items, m) => some ⟨m, items ++ s.out⟩
    | .error _ => none
  | .tcacheFree items =>
    if items.Nodup ∧ items ⊆ s.out then
      match mempoolTcacheFree s.pool items with
      | .ok m => some ⟨m, s.out.diff items⟩
      | .error _ => none
    else none

def mempoolSystem (m : Mempool) : System MempoolState MempoolAct where
  init s := s = ⟨m, []⟩
  next := mempoolNext

def Mempool.free (m : Mempool) : List (BitVec 64) :=
  (m.freeItems.take m.capacity.toNat).drop m.allocated.toNat

structure Buffer where
  buf : BitVec 64
  len : BitVec 64
  nonnull : buf ≠ 0
  fits : buf.toNat + len.toNat ≤ 2 ^ 64

def Before (len : Nat) (x y : BitVec 64) : Prop := x.toNat + len ≤ y.toNat

/-- There is a multiple of the page size in the block, and not at its
start. -/
def Straddles (pgsize len start : Nat) : Prop :=
  ∃ k, start < k * pgsize ∧ k * pgsize < start + len

/-- What is expected of a pool between two calls: its outstanding items are
disjoint, in the buffer and within a page, and no call has a fault. -/
structure MempoolKept (b : Buffer) (pgsize itemLen : BitVec 64)
    (s : MempoolState) : Prop where
  apart : s.out.Pairwise fun x y =>
    Before itemLen.toNat x y ∨ Before itemLen.toNat y x
  inside : ∀ item ∈ s.out, b.buf.toNat ≤ item.toNat ∧
    item.toNat + itemLen.toNat ≤ b.buf.toNat + b.len.toNat
  within : ∀ item ∈ s.out,
    ¬ Straddles pgsize.toNat itemLen.toNat item.toNat
  alloc : ∃ item m, mempoolAlloc s.pool = .ok (item, m) ∧
    (item = 0 ↔ s.out.length = s.pool.capacity.toNat)
  free : ∀ item ∈ s.out, ∃ m, mempoolFree s.pool item = .ok m
  tcacheAlloc : ∀ nr, ∃ err items m,
    mempoolTcacheAlloc s.pool nr = .ok (err, items, m) ∧
      (err ≠ none → m.free.Perm s.pool.free)
  tcacheFree : ∀ items : List (BitVec 64), items.Nodup →
    (∀ item ∈ items, item ∈ s.out) →
      ∃ m, mempoolTcacheFree s.pool items = .ok m

/-- What is expected of `mempool_create` when there is memory, and of the pool
in every run after it. -/
def MempoolLaws (m : Mempool) (b : Buffer) (pgsize itemLen : BitVec 64) :
    Prop :=
  ∃ pool, mempoolCreate m b.buf b.len pgsize itemLen true = .ok (none, pool) ∧
    pool.capacity.toNat =
      b.len.toNat / pgsize.toNat * (pgsize.toNat / itemLen.toNat) ∧
    ∀ s, (mempoolSystem pool).Reach anyStep s → MempoolKept b pgsize itemLen s

def CountersFit (len pgsize itemLen : Nat) : Prop :=
  len / pgsize < intLimit ∧ (len / pgsize = 0 ∨ pgsize / itemLen < intLimit)

/-- The first page boundary behind the start of the buffer is at the start of
an item, or behind all items of the first page. -/
def BoundaryFree (buf len pgsize itemLen : Nat) : Prop :=
  len / pgsize * (pgsize / itemLen) = 0 ∨
    itemLen ∣ pgsize - buf % pgsize ∨
      pgsize / itemLen * itemLen ≤ pgsize - buf % pgsize

section Calls

variable {all out items : List (BitVec 64)} {m : Mempool} {item : BitVec 64}

structure Holds (all : List (BitVec 64)) (m : Mempool)
    (out : List (BitVec 64)) : Prop where
  array : m.freeItems.length = all.length
  capacity : m.capacity.toNat = all.length
  allocated : m.allocated.toNat = out.length
  perm : (out ++ m.freeItems.drop out.length).Perm all

namespace Holds

section

variable (h : Holds all m out)
include h

theorem free_eq : m.free = m.freeItems.drop out.length := by
  rw [Mempool.free, h.capacity, h.allocated, ← h.array, List.take_length]

theorem length_le : out.length ≤ all.length := by
  have hlen := h.perm.length_eq
  rw [List.length_append] at hlen
  omega

theorem reorder {out' : List (BitVec 64)} (hperm : out'.Perm out) :
    Holds all m out' := by
  have hlen := hperm.length_eq
  constructor
  · exact h.array
  · exact h.capacity
  · rw [h.allocated, hlen]
  · rw [hlen]
    exact (hperm.append_right _).trans h.perm

theorem mem_all (hitem : item ∈ out) : item ∈ all :=
  h.perm.subset (List.mem_append_left _ hitem)

theorem nodup (hall : all.Nodup) : out.Nodup :=
  (h.perm.nodup_iff.mpr hall).of_append_left

theorem perm_of_full (hfull : out.length = all.length) : out.Perm all := by
  have hperm := h.perm
  rwa [hfull, ← h.array, List.drop_length, List.append_nil] at hperm

theorem alloc_full (hfull : out.length = all.length) :
    mempoolAlloc m = .ok (0, m) := by
  have hle : m.capacity ≤ m.allocated := by
    rw [BitVec.le_def, h.capacity, h.allocated, hfull]
  rw [mempoolAlloc, if_pos hle]

theorem alloc (hlt : out.length < all.length) :
    ∃ item, mempoolAlloc m =
        .ok (item, { m with allocated := m.allocated + 1 }) ∧
      item ∈ all ∧
      Holds all { m with allocated := m.allocated + 1 } (item :: out) := by
  have hnot : ¬ m.capacity ≤ m.allocated := by
    rw [BitVec.le_def, h.capacity, h.allocated]
    omega
  have hlen : out.length < m.freeItems.length := by
    rw [h.array]
    exact hlt
  have hdrop := List.drop_eq_getElem_cons hlen
  have hperm : ((m.freeItems[out.length] :: out) ++
      m.freeItems.drop (out.length + 1)).Perm all := by
    have hold := h.perm
    rw [hdrop] at hold
    exact List.perm_middle.symm.trans hold
  refine ⟨m.freeItems[out.length], ?_, ?_, ?_⟩
  · rw [mempoolAlloc, if_neg hnot, h.allocated, List.getElem?_eq_getElem hlen]
  · exact hperm.subset List.mem_cons_self
  · constructor
    · exact h.array
    · exact h.capacity
    · have hallocated := h.allocated
      have hcapacity := h.capacity
      change (m.allocated + 1).toNat = out.length + 1
      bv_omega
    · exact hperm

theorem free (hitem : item ∈ out) :
    ∃ m', mempoolFree m item = .ok m' ∧ Holds all m' (out.erase item) := by
  have hpos := List.length_pos_of_mem hitem
  have hle := h.length_le
  have herase := List.length_erase_of_mem hitem
  have hindex : (m.allocated - 1).toNat = (out.erase item).length := by
    have hallocated := h.allocated
    bv_omega
  have hlt : (out.erase item).length < m.freeItems.length := by
    rw [h.array]
    omega
  have hroom : (m.allocated - 1).toNat < m.freeItems.length := by
    rw [hindex]
    exact hlt
  refine ⟨_, Mempool.store_of_lt hroom, ?_⟩
  constructor
  · rw [List.length_set]
    exact h.array
  · exact h.capacity
  · exact hindex
  · -- the slot before the free items holds the item now
    rw [hindex, List.drop_eq_getElem_cons (by rwa [List.length_set]),
      List.getElem_set_self, List.drop_set_of_lt (by omega)]
    have hsucc : (out.erase item).length + 1 = out.length := by omega
    rw [hsucc]
    refine List.perm_middle.trans (List.Perm.trans ?_ h.perm)
    rw [← List.cons_append]
    exact (List.perm_cons_erase hitem).symm.append_right _

theorem tcacheFree (hnodup : items.Nodup) (hmem : ∀ item ∈ items, item ∈ out) :
    ∃ m', mempoolTcacheFree m items = .ok m' ∧
      Holds all m' (out.diff items) := by
  induction items generalizing m out with
  | nil => exact ⟨m, rfl, h⟩
  | cons item rest ih =>
    obtain ⟨hnot, hrest⟩ := List.nodup_cons.mp hnodup
    obtain ⟨m', hfree, hm'⟩ := h.free (hmem item List.mem_cons_self)
    have hstill : ∀ x ∈ rest, x ∈ out.erase item := by
      intro x hx
      have hne : x ≠ item := by
        rintro rfl
        exact hnot hx
      exact (List.mem_erase_of_ne hne).mpr
        (hmem x (List.mem_cons_of_mem _ hx))
    obtain ⟨m'', hloop, hm''⟩ := ih hm' hrest hstill
    refine ⟨m'', ?_, ?_⟩
    · rw [mempoolTcacheFree, List.foldlM_cons, hfree]
      exact hloop
    · rw [List.diff_cons]
      exact hm''

end

theorem gather (hzero : (0 : BitVec 64) ∉ all) (left : Nat)
    (items : List (BitVec 64)) (h : Holds all m (items ++ out)) :
    ∃ full items' m', mempoolGather left items m = .ok (full, items', m') ∧
      Holds all m' (items' ++ out) := by
  induction left generalizing m items with
  | zero => exact ⟨true, items, m, rfl, h⟩
  | succ left ih =>
    rcases h.length_le.lt_or_eq with hlt | hfull
    · obtain ⟨item, halloc, hitem, hm'⟩ := h.alloc hlt
      have hne : item ≠ 0 := by
        rintro rfl
        exact hzero hitem
      have hmove : (items ++ [item] ++ out).Perm (item :: (items ++ out)) := by
        rw [List.append_assoc]
        exact List.perm_middle
      obtain ⟨full, items', m', hloop, hgathered⟩ :=
        ih (items ++ [item]) (hm'.reorder hmove)
      refine ⟨full, items', m', ?_, hgathered⟩
      rw [mempoolGather, halloc]
      change (if item = 0 then _ else _) = _
      rw [if_neg hne]
      exact hloop
    · refine ⟨false, items, m, ?_, h⟩
      rw [mempoolGather, h.alloc_full hfull]
      rfl

theorem tcacheAlloc (hzero : (0 : BitVec 64) ∉ all) (hall : all.Nodup)
    (nr : Nat) (h : Holds all m out) :
    ∃ err items m', mempoolTcacheAlloc m nr = .ok (err, items, m') ∧
      Holds all m' (items ++ out) ∧
      (err ≠ none → m'.free.Perm m.free) := by
  obtain ⟨full, items, m', hloop, hm'⟩ :=
    gather hzero nr [] h
  rw [mempoolTcacheAlloc, hloop]
  cases full with
  | true => exact ⟨none, items, m', rfl, hm', fun hne => absurd rfl hne⟩
  | false =>
    have hnodup : items.Nodup := (hm'.nodup hall).of_append_left
    obtain ⟨m'', hfree, hm''⟩ := hm'.tcacheFree hnodup
      fun item hitem => List.mem_append_left _ hitem
    have hout : Holds all m'' out := by
      apply hm''.reorder
      have hback : (items ++ (items ++ out).diff items).Perm (items ++ out) :=
        List.subperm_append_diff_self_of_count_le fun item _ => by
          rw [List.count_append]
          exact Nat.le_add_right _ _
      exact ((List.perm_append_left_iff items).mp hback).symm
    refine ⟨some .ENOMEM, [], m'', ?_, hout, fun _ => ?_⟩
    · change (mempoolTcacheFree m' items >>= _) = _
      rw [hfree]
      rfl
    · rw [hout.free_eq, h.free_eq]
      exact (List.perm_append_left_iff out).mp (hout.perm.trans h.perm.symm)

end Holds

theorem Holds.next (hzero : (0 : BitVec 64) ∉ all) (hall : all.Nodup)
    {s t : MempoolState} {a : MempoolAct} (h : Holds all s.pool s.out)
    (hnext : mempoolNext s a = some t) : Holds all t.pool t.out := by
  cases a with
  | alloc =>
    rcases h.length_le.lt_or_eq with hlt | hfull
    · obtain ⟨item, halloc, hitem, hm⟩ := h.alloc hlt
      have hne : item ≠ 0 := by
        rintro rfl
        exact hzero hitem
      simp only [mempoolNext, halloc, if_neg hne] at hnext
      cases hnext
      exact hm
    · simp only [mempoolNext, h.alloc_full hfull] at hnext
      cases hnext
      exact h
  | free item =>
    simp only [mempoolNext] at hnext
    split_ifs at hnext with hitem
    obtain ⟨m, hfree, hm⟩ := h.free (List.contains_iff_mem.mp hitem)
    rw [hfree] at hnext
    cases hnext
    exact hm
  | tcacheAlloc nr =>
    obtain ⟨err, items, m, halloc, hm, -⟩ := h.tcacheAlloc hzero hall nr
    simp only [mempoolNext, halloc] at hnext
    cases hnext
    exact hm
  | tcacheFree items =>
    simp only [mempoolNext] at hnext
    split_ifs at hnext with hitems
    obtain ⟨m, hfree, hm⟩ := h.tcacheFree hitems.1 fun _ hx => hitems.2 hx
    rw [hfree] at hnext
    cases hnext
    exact hm

theorem Holds.reach_full (hzero : (0 : BitVec 64) ∉ all) (h : Holds all m []) :
    ∃ s, (mempoolSystem m).Reach anyStep s ∧ s.out.Perm all := by
  have hrun : ∀ n ≤ all.length, ∃ s, (mempoolSystem m).Reach anyStep s ∧
      Holds all s.pool s.out ∧ s.out.length = n := by
    intro n
    induction n with
    | zero => exact fun _ => ⟨⟨m, []⟩, .init rfl, h, rfl⟩
    | succ n ih =>
      intro hn
      obtain ⟨s, hs, hheld, hlen⟩ := ih (by omega)
      obtain ⟨item, halloc, hitem, hm⟩ := hheld.alloc (by omega)
      have hne : item ≠ 0 := by
        rintro rfl
        exact hzero hitem
      refine ⟨⟨_, item :: s.out⟩, hs.step (a := .alloc) trivial ?_, hm, ?_⟩
      · simp only [mempoolSystem, mempoolNext, halloc, if_neg hne]
      · rw [List.length_cons, hlen]
  obtain ⟨s, hs, hheld, hlen⟩ := hrun all.length (Nat.le_refl _)
  exact ⟨s, hs, hheld.perm_of_full hlen⟩

end Calls

section Populate

variable {m : Mempool} {n : Nat} {done : List (BitVec 64)} {item : BitVec 64}

def Mempool.filled (m : Mempool) (n : Nat) (done : List (BitVec 64)) :
    Mempool :=
  { m with
    freeItems := done ++ List.replicate (n - done.length) 0
    capacity := BitVec.ofNat 64 done.length }

theorem Mempool.append_filled (hlt : done.length < n) (hn : n < 2 ^ 64) :
    (m.filled n done).append item = .ok (m.filled n (done ++ [item])) := by
  have hindex : (BitVec.ofNat 64 done.length).toNat = done.length :=
    BitVec.toNat_ofNat .. |>.trans (Nat.mod_eq_of_lt (by omega))
  have hroom : done.length <
      (done ++ List.replicate (n - done.length) (0 : BitVec 64)).length := by
    rw [List.length_append, List.length_replicate]
    omega
  have hslot : n - done.length = n - (done.length + 1) + 1 := by omega
  rw [append, store_of_lt (by rw [filled, hindex]; exact hroom)]
  simp only [filled, hindex]
  congr 2
  · rw [List.set_append_right _ _ (Nat.le_refl _), Nat.sub_self, hslot,
      List.replicate_succ, List.set_cons_zero, List.length_append,
      List.length_singleton, List.append_assoc, List.singleton_append]
  · rw [List.length_append, List.length_singleton]
    exact (BitVec.ofNat_add ..).symm

theorem Mempool.append_ok {m' : Mempool} (hok : m.append item = .ok m') :
    m'.freeItems.length = m.freeItems.length ∧
      m.capacity.toNat < m.freeItems.length ∧
      m'.capacity = m.capacity + 1 := by
  obtain ⟨hlt, rfl⟩ := store_ok hok
  exact ⟨List.length_set, hlt, rfl⟩

variable {buf pgsize itemLen : BitVec 64} {pages perPage : Nat}

def mempoolItems (buf pgsize itemLen : BitVec 64) (pages perPage : Nat) :
    List (BitVec 64) :=
  (List.range pages).flatMap fun i =>
    (List.range perPage).map (mempoolItem buf pgsize itemLen i)

theorem mempoolItems_succ :
    mempoolItems buf pgsize itemLen (pages + 1) perPage =
      mempoolItems buf pgsize itemLen pages perPage ++
        (List.range perPage).map (mempoolItem buf pgsize itemLen pages) := by
  rw [mempoolItems, List.range_succ, List.flatMap_append,
    List.flatMap_singleton]
  rfl

theorem length_mempoolItems :
    (mempoolItems buf pgsize itemLen pages perPage).length =
      pages * perPage := by
  simp [mempoolItems, List.length_flatMap]

theorem mempoolFill_filled (hn : pages * perPage < 2 ^ 64)
    (hpages : pages < intLimit) (hper : pages = 0 ∨ perPage < intLimit) :
    mempoolFill buf pgsize itemLen pages perPage
        (m.filled (pages * perPage) []) =
      .ok (m.filled (pages * perPage)
        (mempoolItems buf pgsize itemLen pages perPage)) := by
  have hloops : Meets (fun _ => False)
      (mempoolFill buf pgsize itemLen pages perPage
        (m.filled (pages * perPage) []))
      fun m' => m' = m.filled (pages * perPage)
        (mempoolItems buf pgsize itemLen (0 + pages) perPage) := by
    apply Meets.countFrom fun i m' => m' = m.filled (pages * perPage)
      (mempoolItems buf pgsize itemLen i perPage)
    · rfl
    · rintro i m' hi rfl
      have hroom : i * perPage + perPage ≤ pages * perPage := by
        rw [← Nat.succ_mul]
        exact Nat.mul_le_mul_right _ (by omega)
      have hpage : Meets (fun _ => False)
          (countFrom intLimit .overflow
            (fun j m => m.append (mempoolItem buf pgsize itemLen i j)) 0
            perPage (m.filled (pages * perPage)
              (mempoolItems buf pgsize itemLen i perPage)))
          fun m' => m' = m.filled (pages * perPage)
            (mempoolItems buf pgsize itemLen i perPage ++
              (List.range (0 + perPage)).map
                (mempoolItem buf pgsize itemLen i)) := by
        apply Meets.countFrom fun j m' => m' = m.filled (pages * perPage)
          (mempoolItems buf pgsize itemLen i perPage ++
            (List.range j).map (mempoolItem buf pgsize itemLen i))
        · rw [List.range_zero, List.map_nil, List.append_nil]
        · rintro j m' hj rfl
          rw [Mempool.append_filled _ hn]
          · rw [meets_ok, List.range_succ, List.map_append, List.append_assoc]
            rfl
          · rw [List.length_append, length_mempoolItems, List.length_map,
              List.length_range]
            omega
        · exact .inl (by omega)
      rw [mempoolItems_succ, ← Nat.zero_add perPage]
      simpa only [Nat.zero_add] using hpage
    · exact .inl (by omega)
  rw [Nat.zero_add] at hloops
  cases hfill : mempoolFill buf pgsize itemLen pages perPage
      (m.filled (pages * perPage) []) with
  | error e => exact (hloops.of_error hfill).elim
  | ok m' => rw [hloops.of_ok hfill]

def Appended (m m' : Mempool) (count : Nat) : Prop :=
  m'.capacity.toNat = m.capacity.toNat + count ∧
    (count = 0 ∨ m.capacity.toNat + count ≤ m.freeItems.length)

theorem Appended.zero : Appended m m 0 := ⟨rfl, .inl rfl⟩

theorem Appended.trans {m₁ m₂ : Mempool} {k l : Nat} (h : Appended m m₁ k)
    (hsame : m₁.freeItems.length = m.freeItems.length) (h' : Appended m₁ m₂ l) :
    Appended m m₂ (k + l) := by
  obtain ⟨hcapacity, hroom⟩ := h
  obtain ⟨hcapacity', hroom'⟩ := h'
  constructor <;> omega

theorem Appended.one {m' : Mempool} (hlen : m.freeItems.length < 2 ^ 64)
    (hok : m.append item = .ok m') : Appended m m' 1 := by
  obtain ⟨-, hlt, hcapacity⟩ := Mempool.append_ok hok
  rw [Appended, hcapacity]
  constructor
  · bv_omega
  · exact .inr hlt

theorem mempoolFill_page {m' : Mempool} {i : Nat}
    (hlen : m.freeItems.length < 2 ^ 64) (hok : countFrom intLimit .overflow
      (fun j m => m.append (mempoolItem buf pgsize itemLen i j)) 0 perPage m =
        .ok m') :
    m'.freeItems.length = m.freeItems.length ∧ Appended m m' perPage := by
  have hloop : Meets anyFailure
      (countFrom intLimit .overflow
        (fun j m => m.append (mempoolItem buf pgsize itemLen i j)) 0 perPage m)
      fun m' => m'.freeItems.length = m.freeItems.length ∧
        Appended m m' (0 + perPage) := by
    apply Meets.countFrom fun j m' =>
      m'.freeItems.length = m.freeItems.length ∧ Appended m m' j
    · exact ⟨rfl, .zero⟩
    · rintro j m₁ - ⟨hsame, hbefore⟩
      rw [meets_anyFailure]
      intro m₂ hone
      refine ⟨(Mempool.append_ok hone).1.trans hsame, ?_⟩
      exact hbefore.trans hsame (.one (hsame ▸ hlen) hone)
    · exact .inr trivial
  rw [Nat.zero_add] at hloop
  exact hloop.of_ok hok

/-- The loops append so many items, and do not come to their end unless there
is room for them and the counters do not overflow. -/
theorem mempoolFill_ok {m' : Mempool} (hlen : m.freeItems.length < 2 ^ 64)
    (hok : mempoolFill buf pgsize itemLen pages perPage m = .ok m') :
    m'.capacity.toNat = m.capacity.toNat + pages * perPage ∧
      (pages * perPage = 0 ∨
        m.capacity.toNat + pages * perPage ≤ m.freeItems.length) ∧
      pages < intLimit ∧ (pages = 0 ∨ perPage < intLimit) := by
  have hloops : Meets anyFailure
      (mempoolFill buf pgsize itemLen pages perPage m)
      fun m' => m'.freeItems.length = m.freeItems.length ∧
        Appended m m' ((0 + pages) * perPage) ∧
        (0 + pages = 0 ∨ perPage < intLimit) := by
    apply Meets.countFrom fun i m' =>
      m'.freeItems.length = m.freeItems.length ∧
        Appended m m' (i * perPage) ∧ (i = 0 ∨ perPage < intLimit)
    · rw [Nat.zero_mul]
      exact ⟨rfl, .zero, .inl rfl⟩
    · rintro i m₁ - ⟨hsame, hbefore, -⟩
      rw [meets_anyFailure]
      intro m₂ hpage
      obtain ⟨hsame', hadded⟩ := mempoolFill_page (hsame ▸ hlen) hpage
      refine ⟨hsame'.trans hsame, ?_, .inr ?_⟩
      · rw [Nat.succ_mul]
        exact hbefore.trans hsame hadded
      · have hlimit := countFrom_ok (by decide) hpage
        rwa [Nat.zero_add] at hlimit
    · exact .inr trivial
  have hlimit := countFrom_ok (by decide) hok
  rw [Nat.zero_add] at hloops hlimit
  obtain ⟨-, ⟨hcapacity, hroom⟩, hper⟩ := hloops.of_ok hok
  exact ⟨hcapacity, hroom, hlimit, hper⟩

end Populate

section Items

variable {b : Buffer} {pgsize itemLen : BitVec 64} {len P L i j : Nat}

theorem item_le_page (hj : j < P / L) : L * j + L ≤ P := by
  rw [← Nat.mul_succ, Nat.mul_comm]
  exact (Nat.mul_le_mul_right L hj).trans (Nat.div_mul_le_self P L)

theorem item_le_len (hi : i < len / P) (hj : j < P / L) :
    P * i + L * j + L ≤ len := by
  have hpage := item_le_page hj
  have hpages : P * (i + 1) ≤ len := by
    rw [Nat.mul_comm]
    exact (Nat.mul_le_mul_right P hi).trans (Nat.div_mul_le_self len P)
  rw [Nat.mul_succ] at hpages
  omega

theorem mempoolItem_toNat (hlen : itemLen ≠ 0)
    (hi : i < b.len.toNat / pgsize.toNat)
    (hj : j < pgsize.toNat / itemLen.toNat) :
    (mempoolItem b.buf pgsize itemLen i j).toNat =
      b.buf.toNat + pgsize.toNat * i + itemLen.toNat * j := by
  have hend := item_le_len hi hj
  have hfits := b.fits
  have hpos : 0 < itemLen.toNat := by bv_omega
  have hnat : mempoolItem b.buf pgsize itemLen i j = BitVec.ofNat 64
      (b.buf.toNat + pgsize.toNat * i + itemLen.toNat * j) := by
    simp [mempoolItem, BitVec.ofNat_add, BitVec.ofNat_mul]
  rw [hnat, BitVec.toNat_ofNat, Nat.mod_eq_of_lt (by omega)]

def Buffer.items (b : Buffer) (pgsize itemLen : BitVec 64) :
    List (BitVec 64) :=
  mempoolItems b.buf pgsize itemLen (b.len.toNat / pgsize.toNat)
    (pgsize.toNat / itemLen.toNat)

theorem mem_items {item : BitVec 64} :
    item ∈ b.items pgsize itemLen ↔
      ∃ i < b.len.toNat / pgsize.toNat, ∃ j < pgsize.toNat / itemLen.toNat,
        mempoolItem b.buf pgsize itemLen i j = item := by
  simp [Buffer.items, mempoolItems]

theorem items_sorted (b : Buffer) (pgsize : BitVec 64) (hlen : itemLen ≠ 0) :
    (b.items pgsize itemLen).Pairwise (Before itemLen.toNat) := by
  rw [Buffer.items, mempoolItems, List.pairwise_flatMap]
  constructor
  · intro i hi
    rw [List.pairwise_map]
    apply List.pairwise_lt_range.imp_of_mem
    intro j j' hj hj' hlt
    rw [List.mem_range] at hi hj hj'
    rw [Before, mempoolItem_toNat hlen hi hj, mempoolItem_toNat hlen hi hj']
    have hstep : itemLen.toNat * (j + 1) ≤ itemLen.toNat * j' :=
      Nat.mul_le_mul_left _ hlt
    rw [Nat.mul_succ] at hstep
    omega
  · apply List.pairwise_lt_range.imp_of_mem
    intro i i' hi hi' hlt x hx y hy
    obtain ⟨j, hj, rfl⟩ := List.mem_map.mp hx
    obtain ⟨j', hj', rfl⟩ := List.mem_map.mp hy
    rw [List.mem_range] at hi hi' hj hj'
    rw [Before, mempoolItem_toNat hlen hi hj, mempoolItem_toNat hlen hi' hj']
    have hpage := item_le_page hj
    have hstep : pgsize.toNat * (i + 1) ≤ pgsize.toNat * i' :=
      Nat.mul_le_mul_left _ hlt
    rw [Nat.mul_succ] at hstep
    omega

theorem items_nodup (b : Buffer) (pgsize : BitVec 64) (hlen : itemLen ≠ 0) :
    (b.items pgsize itemLen).Nodup := by
  have hpos : 0 < itemLen.toNat := by bv_omega
  apply (items_sorted b pgsize hlen).imp
  rintro x y hbefore rfl
  rw [Before] at hbefore
  omega

theorem item_inside (hlen : itemLen ≠ 0) {item : BitVec 64}
    (hitem : item ∈ b.items pgsize itemLen) :
    b.buf.toNat ≤ item.toNat ∧
      item.toNat + itemLen.toNat ≤ b.buf.toNat + b.len.toNat := by
  obtain ⟨i, hi, j, hj, rfl⟩ := mem_items.mp hitem
  have hend := item_le_len hi hj
  rw [mempoolItem_toNat hlen hi hj]
  omega

theorem zero_not_mem_items (b : Buffer) (pgsize : BitVec 64)
    (hlen : itemLen ≠ 0) : (0 : BitVec 64) ∉ b.items pgsize itemLen := by
  intro hzero
  have hinside := (item_inside hlen hzero).1
  have hnonnull := b.nonnull
  bv_omega

theorem Holds.kept {m : Mempool} {out : List (BitVec 64)} (hlen : itemLen ≠ 0)
    (h : Holds (b.items pgsize itemLen) m out)
    (hwithin : ∀ item ∈ b.items pgsize itemLen,
      ¬ Straddles pgsize.toNat itemLen.toNat item.toNat) :
    MempoolKept b pgsize itemLen ⟨m, out⟩ := by
  have hzero := zero_not_mem_items b pgsize hlen
  have hall := items_nodup b pgsize hlen
  constructor
  case apart =>
    have hsorted := (items_sorted b pgsize hlen).imp
      (S := fun x y => Before itemLen.toNat x y ∨ Before itemLen.toNat y x)
      Or.inl
    exact (List.pairwise_append.mp (hsorted.perm h.perm.symm Or.symm)).1
  case inside => exact fun item hitem => item_inside hlen (h.mem_all hitem)
  case within => exact fun item hitem => hwithin item (h.mem_all hitem)
  case alloc =>
    rcases h.length_le.lt_or_eq with hlt | hfull
    · obtain ⟨item, halloc, hitem, -⟩ := h.alloc hlt
      refine ⟨item, _, halloc, ?_⟩
      rw [h.capacity]
      apply iff_of_false
      · rintro rfl
        exact hzero hitem
      · exact hlt.ne
    · refine ⟨0, m, h.alloc_full hfull, ?_⟩
      rw [h.capacity]
      exact iff_of_true rfl hfull
  case free =>
    intro item hitem
    obtain ⟨m', hfree, -⟩ := h.free hitem
    exact ⟨m', hfree⟩
  case tcacheAlloc =>
    intro nr
    obtain ⟨err, items, m', halloc, -, hfailed⟩ := h.tcacheAlloc hzero hall nr
    exact ⟨err, items, m', halloc, hfailed⟩
  case tcacheFree =>
    intro items hnodup hmem
    obtain ⟨m', hfree, -⟩ := h.tcacheFree hnodup hmem
    exact ⟨m', hfree⟩

/-- An item straddles a page boundary only if the first boundary behind the
start of the buffer is inside an item of the first page. -/
theorem not_straddles {buf : Nat} (hP : 0 < P) (hj : j < P / L)
    (hfree : L ∣ P - buf % P ∨ P / L * L ≤ P - buf % P) :
    ¬ Straddles P L (buf + P * i + L * j) := by
  rintro ⟨k, hstart, hend⟩
  have hpage := item_le_page hj
  have hmod := Nat.mod_lt buf hP
  have hdiv := Nat.div_add_mod buf P
  -- counted in pages from that of the buffer, the boundary is the first one
  have hfirst : k * P = P * (buf / P + i + 1) := by
    rw [Nat.mul_comm k]
    congr 1
    have hlow : P * (buf / P + i) < P * k := by
      rw [Nat.mul_add, Nat.mul_comm P k]
      omega
    have hhigh : P * k < P * (buf / P + i + 2) := by
      rw [Nat.mul_add, Nat.mul_add, Nat.mul_comm P k]
      omega
    have := Nat.lt_of_mul_lt_mul_left hlow
    have := Nat.lt_of_mul_lt_mul_left hhigh
    omega
  have hbefore : L * j < P - buf % P := by
    rw [hfirst, Nat.mul_add, Nat.mul_add] at hstart
    omega
  have hafter : P - buf % P < L * j + L := by
    rw [hfirst, Nat.mul_add, Nat.mul_add] at hend
    omega
  rcases hfree with ⟨c, hc⟩ | hle
  · rw [hc, ← Nat.mul_succ] at hafter
    rw [hc] at hbefore
    have := Nat.lt_of_mul_lt_mul_left hbefore
    have := Nat.lt_of_mul_lt_mul_left hafter
    omega
  · have hlast : L * j + L ≤ P / L * L := by
      rw [← Nat.mul_succ, Nat.mul_comm]
      exact Nat.mul_le_mul_right L hj
    omega

theorem exists_straddles {buf : Nat} (hP : 0 < P) (hL : 0 < L)
    (hfree : ¬ (L ∣ P - buf % P ∨ P / L * L ≤ P - buf % P)) :
    ∃ j < P / L, Straddles P L (buf + P * 0 + L * j) := by
  obtain ⟨hdvd, hlt⟩ := not_or.mp hfree
  have hmod := Nat.mod_lt buf hP
  have hdiv := Nat.div_add_mod buf P
  have hsplit := Nat.div_add_mod (P - buf % P) L
  have hrest : 0 < (P - buf % P) % L :=
    Nat.pos_of_ne_zero fun h => hdvd (Nat.dvd_of_mod_eq_zero h)
  have hrest_lt := Nat.mod_lt (P - buf % P) hL
  refine ⟨(P - buf % P) / L, ?_, buf / P + 1, ?_, ?_⟩
  · rw [Nat.div_lt_iff_lt_mul hL]
    omega
  · rw [Nat.add_mul, Nat.mul_comm (buf / P)]
    omega
  · rw [Nat.add_mul, Nat.mul_comm (buf / P)]
    omega

theorem items_within_iff (hP : pgsize ≠ 0) (hlen : itemLen ≠ 0) :
    (∀ item ∈ b.items pgsize itemLen,
      ¬ Straddles pgsize.toNat itemLen.toNat item.toNat) ↔
      BoundaryFree b.buf.toNat b.len.toNat pgsize.toNat itemLen.toNat := by
  have hpos : 0 < pgsize.toNat := by bv_omega
  rw [BoundaryFree]
  constructor
  · intro hwithin
    by_contra hnot
    obtain ⟨hsome, hfree⟩ := not_or.mp hnot
    obtain ⟨j, hj, hstraddles⟩ := exists_straddles hpos (by bv_omega) hfree
    have hi : 0 < b.len.toNat / pgsize.toNat :=
      Nat.pos_of_ne_zero fun h => hsome (by rw [h, Nat.zero_mul])
    rw [← mempoolItem_toNat hlen hi hj] at hstraddles
    exact hwithin _ (mem_items.mpr ⟨0, hi, j, hj, rfl⟩) hstraddles
  · intro hfree item hitem
    obtain ⟨i, hi, j, hj, rfl⟩ := mem_items.mp hitem
    rw [mempoolItem_toNat hlen hi hj]
    apply not_straddles hpos hj
    apply hfree.resolve_left
    exact (Nat.mul_pos (by omega) (by omega)).ne'

end Items

section Create

variable {m pool : Mempool} {b : Buffer} {pgsize itemLen : BitVec 64}

theorem mempoolAccepts_iff {len : BitVec 64} :
    mempoolAccepts len pgsize itemLen = true ↔
      itemLen ≠ 0 ∧ isPowerOfTwo pgsize = true ∧ len % pgsize = 0 := by
  simp [mempoolAccepts, and_assoc]

def Mempool.prepared (m : Mempool) (b : Buffer) (pgsize itemLen : BitVec 64) :
    Mempool :=
  { m with
    allocated := 0, buf := b.buf, len := b.len, pgsize := pgsize
    itemLen := itemLen
    freeItems := List.replicate (b.items pgsize itemLen).length 0 }

theorem length_items :
    (b.items pgsize itemLen).length =
      b.len.toNat / pgsize.toNat * (pgsize.toNat / itemLen.toNat) :=
  length_mempoolItems

theorem length_items_lt (b : Buffer) (pgsize itemLen : BitVec 64) :
    (b.items pgsize itemLen).length < 2 ^ 64 := by
  have hlen := b.len.isLt
  rw [length_items]
  calc
    b.len.toNat / pgsize.toNat * (pgsize.toNat / itemLen.toNat)
      ≤ b.len.toNat / pgsize.toNat * pgsize.toNat :=
        Nat.mul_le_mul_left _ (Nat.div_le_self _ _)
    _ ≤ b.len.toNat := Nat.div_mul_le_self _ _
    _ < 2 ^ 64 := hlen

theorem mempoolCreate_iff
    (haccepts : mempoolAccepts b.len pgsize itemLen = true) :
    mempoolCreate m b.buf b.len pgsize itemLen true = .ok (none, pool) ↔
      mempoolFill b.buf pgsize itemLen (b.len.toNat / pgsize.toNat)
        (pgsize.toNat / itemLen.toNat) (m.prepared b pgsize itemLen) =
          .ok pool := by
  have hcount : (b.len / pgsize * (pgsize / itemLen)).toNat =
      (b.items pgsize itemLen).length := by
    have hlt := length_items_lt b pgsize itemLen
    rw [length_items] at hlt ⊢
    rw [BitVec.toNat_mul, BitVec.toNat_udiv, BitVec.toNat_udiv,
      Nat.mod_eq_of_lt hlt]
  rw [mempoolCreate, if_pos haccepts, mempoolPopulate]
  simp only [if_true, hcount, BitVec.toNat_udiv]
  change (mempoolFill b.buf pgsize itemLen _ _
    (m.prepared b pgsize itemLen) >>= _) = _ ↔ _
  cases mempoolFill b.buf pgsize itemLen (b.len.toNat / pgsize.toNat)
      (pgsize.toNat / itemLen.toNat) (m.prepared b pgsize itemLen) with
  | error e => exact iff_of_false nofun nofun
  | ok m' =>
    change Except.ok (none, m') = Except.ok (none, pool) ↔ _
    simp

theorem mempoolCreate_holds
    (haccepts : mempoolAccepts b.len pgsize itemLen = true)
    (hcapacity : m.capacity = 0)
    (hfit : CountersFit b.len.toNat pgsize.toNat itemLen.toNat) :
    ∃ pool, mempoolCreate m b.buf b.len pgsize itemLen true =
        .ok (none, pool) ∧
      Holds (b.items pgsize itemLen) pool [] := by
  have hn := length_items_lt b pgsize itemLen
  have hprepared : m.prepared b pgsize itemLen =
      (m.prepared b pgsize itemLen).filled (b.items pgsize itemLen).length
        [] := by
    simp [Mempool.filled, Mempool.prepared, hcapacity]
  refine ⟨(m.prepared b pgsize itemLen).filled (b.items pgsize itemLen).length
    (b.items pgsize itemLen), (mempoolCreate_iff haccepts).mpr ?_, ?_⟩
  · rw [hprepared, length_items]
    exact mempoolFill_filled (length_items ▸ hn) hfit.1 hfit.2
  · have hfull : ((m.prepared b pgsize itemLen).filled
        (b.items pgsize itemLen).length (b.items pgsize itemLen)).freeItems =
        b.items pgsize itemLen := by
      simp [Mempool.filled]
    constructor
    · rw [hfull]
    · change (BitVec.ofNat 64 _).toNat = _
      rw [BitVec.toNat_ofNat, Nat.mod_eq_of_lt hn]
    · rfl
    · rw [hfull, List.length_nil, List.drop_zero, List.nil_append]

/-- A pool that holds its items keeps what is expected of it in every run, if
and only if no item straddles a page boundary. -/
theorem Holds.kept_iff (hP : pgsize ≠ 0) (hlen : itemLen ≠ 0)
    (h : Holds (b.items pgsize itemLen) pool []) :
    (∀ s, (mempoolSystem pool).Reach anyStep s →
      MempoolKept b pgsize itemLen s) ↔
      BoundaryFree b.buf.toNat b.len.toNat pgsize.toNat itemLen.toNat := by
  have hzero := zero_not_mem_items b pgsize hlen
  rw [← items_within_iff hP hlen]
  constructor
  · intro hkept item hitem
    obtain ⟨s, hs, hfull⟩ := h.reach_full hzero
    exact (hkept s hs).within item (hfull.mem_iff.mpr hitem)
  · intro hwithin s hs
    have hheld : Holds (b.items pgsize itemLen) s.pool s.out := by
      apply hs.invariant
      · rintro s rfl
        exact h
      · intro s a t hheld _ hnext
        exact hheld.next hzero (items_nodup b pgsize hlen) hnext
    exact hheld.kept hlen hwithin

end Create

/-- For arguments that `mempool_create` accepts, the pool is as expected, in
every run, if and only if the struct had the capacity 0, the counters do not
overflow, and no page boundary is inside an item. -/
theorem mempool_laws_iff (m : Mempool) (b : Buffer) (pgsize itemLen : BitVec 64)
    (haccepts : mempoolAccepts b.len pgsize itemLen = true) :
    MempoolLaws m b pgsize itemLen ↔
      m.capacity = 0 ∧
        CountersFit b.len.toNat pgsize.toNat itemLen.toNat ∧
        BoundaryFree b.buf.toNat b.len.toNat pgsize.toNat itemLen.toNat := by
  obtain ⟨hlen, hpow, -⟩ := mempoolAccepts_iff.mp haccepts
  have hP : pgsize ≠ 0 := by
    rintro rfl
    cases hpow
  constructor
  · rintro ⟨pool, hcreate, hcapacity, hruns⟩
    have hfill := (mempoolCreate_iff haccepts).mp hcreate
    have harray : (m.prepared b pgsize itemLen).freeItems.length =
        (b.items pgsize itemLen).length := List.length_replicate
    obtain ⟨hadded, -, hpages, hper⟩ :=
      mempoolFill_ok (harray ▸ length_items_lt b pgsize itemLen) hfill
    have hzero : m.capacity = 0 := by
      change _ = m.capacity.toNat + _ at hadded
      bv_omega
    obtain ⟨pool', hcreate', hheld⟩ :=
      mempoolCreate_holds haccepts hzero ⟨hpages, hper⟩
    obtain ⟨-, rfl⟩ := Prod.mk.inj (Except.ok.inj (hcreate.symm.trans hcreate'))
    exact ⟨hzero, ⟨hpages, hper⟩, (hheld.kept_iff hP hlen).mp hruns⟩
  · rintro ⟨hzero, hfit, hfree⟩
    obtain ⟨pool, hcreate, hheld⟩ := mempoolCreate_holds haccepts hzero hfit
    refine ⟨pool, hcreate, ?_, (hheld.kept_iff hP hlen).mpr hfree⟩
    rw [hheld.capacity, length_items]

def twoPages : Buffer := ⟨0x10000, 0x2000, by decide, by decide⟩

def zeroMempool : Mempool := ⟨[], 0, 0, 0, 0, 0, 0⟩

theorem mempool_laws_iff_two_pages :
    mempoolAccepts twoPages.len 0x1000 0x600 = true ∧
      (MempoolLaws zeroMempool twoPages 0x1000 0x600 ↔
        zeroMempool.capacity = 0 ∧ CountersFit 0x2000 0x1000 0x600 ∧
          BoundaryFree 0x10000 0x2000 0x1000 0x600) :=
  ⟨by decide, mempool_laws_iff zeroMempool twoPages 0x1000 0x600 (by decide)⟩

def fourItems : Mempool :=
  { freeItems := [0x10000, 0x10600, 0x11000, 0x11600]
    allocated := 0, capacity := 4, buf := 0x10000, len := 0x2000
    pgsize := 0x1000, itemLen := 0x600 }

/-- A pool is created, destroyed and created again: the first item is stored
behind the array. -/
theorem second_creation_overruns :
    mempoolCreate zeroMempool twoPages.buf twoPages.len 0x1000 0x600 true =
        .ok (none, fourItems) ∧
      mempoolCreate (mempoolDestroy fourItems) twoPages.buf twoPages.len 0x1000
        0x600 true = .error (.outside 4) ∧
      ¬ MempoolLaws (mempoolDestroy fourItems) twoPages 0x1000 0x600 := by
  have hagain : mempoolCreate (mempoolDestroy fourItems) twoPages.buf
      twoPages.len 0x1000 0x600 true = .error (.outside 4) := by
    decide
  refine ⟨by decide, hagain, ?_⟩
  rintro ⟨pool, hcreate, -⟩
  cases hagain.symm.trans hcreate

end Libut.Base
