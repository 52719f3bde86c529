import Libut.Base.SlabInit
import Libut.Hwalloc.Cores
import Libut.Hwalloc.Shm

/-!
The memory that a runtime shares with the daemon (`runtime/ioqueues.c`). One
function computes its size, another lays out the queues of every thread behind
the control header by moving a pointer, and both sides turn the offsets that
this leaves in the header back into pointers: the runtime in
`ioqueues_init_thread`, the daemon, at an address of its own, in
`control_create_proc`. All arithmetic is modulo `2 ^ 64`.
-/

namespace Libut.Runtime

open Base Hwalloc

/-- `struct queue_spec` -/
def fieldQueueSpec : Field := ⟨structSize [.long, .long, .long], 8⟩

/-- `rxq`, `txq`, `q_ptrs`, `tid`, `park_efd` -/
def sizeofThreadSpec : Nat :=
  structSize [fieldQueueSpec, fieldQueueSpec, .long, .int, .int]

/-- `struct sched_spec`: five fields of type `unsigned int` -/
def fieldSchedSpec : Field := ⟨structSize [.int, .int, .int, .int, .int], 4⟩

/-- `magic`, `thread_count`, `sched_cfg` and `threads` with one entry -/
def sizeofControlHdr : Nat :=
  structSize [.int, .int, fieldSchedSpec, ⟨sizeofThreadSpec, 8⟩]

/-- Where `threads` starts in the control header. -/
def offsetofThreads : Nat :=
  roundUp (structSize [.int, .int, fieldSchedSpec]) 8

/-- `rxq_wb`, `rq_head`, `rq_tail` -/
def sizeofQPtrs : Nat := structSize [.int, .int, .int]

def commandQueueMcount : BitVec 64 := 4096

structure ThreadSpec where
  rxq : QueueSpec
  txq : QueueSpec
  qPtrs : BitVec 64
  deriving DecidableEq, Repr

def calculateShmSpace (threadCount : Nat) : BitVec 64 :=
  let count := BitVec.ofNat 64 threadCount
  -- header and `queue_spec` information
  let hdr := alignUp
    (BitVec.ofNat 64 sizeofControlHdr + BitVec.ofNat 64 sizeofThreadSpec * count)
    cacheLineSize
  -- receive queues, without `wb`
  let rxqs := alignUp (lrpcMsgSize * commandQueueMcount) cacheLineSize * count
  -- transmit queues
  let txqs := (alignUp (lrpcMsgSize * commandQueueMcount) cacheLineSize +
    alignUp 4 cacheLineSize) * count
  -- shared queue pointers
  let qPtrs := alignUp (BitVec.ofNat 64 sizeofQPtrs) cacheLineSize * count
  alignUp (hdr + rxqs + txqs + qPtrs) (BitVec.ofNat 64 pgsize2MB)

def ptrToShmptr (r : ShmRegion) (ptr : BitVec 64) : BitVec 64 := ptr - r.base

/-- `ioqueue_alloc`, with the pointer that it moves -/
def ioqueueAlloc (r : ShmRegion) (q : QueueSpec) (ptr msgCount : BitVec 64)
    (allocWb : Bool) : QueueSpec × BitVec 64 :=
  let msgBuf := ptrToShmptr r ptr
  let ptr := ptr + alignUp (lrpcMsgSize * msgCount) cacheLineSize
  if allocWb then
    (⟨msgCount, msgBuf, ptrToShmptr r ptr⟩, ptr + alignUp 4 cacheLineSize)
  else (⟨msgCount, msgBuf, q.wb⟩, ptr)

def queuePointersAlloc (r : ShmRegion) (tspec : ThreadSpec) (ptr : BitVec 64) :
    ThreadSpec × BitVec 64 :=
  ({ tspec with
      rxq := { tspec.rxq with wb := ptrToShmptr r ptr }
      qPtrs := ptrToShmptr r ptr },
    ptr + alignUp (BitVec.ofNat 64 sizeofQPtrs) cacheLineSize)

/-- The loop of `ioqueues_shm_setup` over `hwc.threads`. -/
def setupThreads (r : ShmRegion) : List ThreadSpec → BitVec 64 → List ThreadSpec
  | [], _ => []
  | tspec :: tspecs, ptr =>
    let (rxq, ptr) := ioqueueAlloc r tspec.rxq ptr commandQueueMcount false
    let (txq, ptr) := ioqueueAlloc r tspec.txq ptr commandQueueMcount true
    let (tspec, ptr) := queuePointersAlloc r ⟨rxq, txq, tspec.qPtrs⟩ ptr
    tspec :: setupThreads r tspecs ptr

/-- `ioqueues_shm_setup` in a region that was mapped: the new contents of
`hwc.threads`, which `ioqueues_register_hwallocd` copies to the header -/
def ioqueuesShmSetup (r : ShmRegion) (threads : List ThreadSpec) :
    List ThreadSpec :=
  setupThreads r threads (alignUp (r.base + (BitVec.ofNat 64 sizeofControlHdr +
      BitVec.ofNat 64 sizeofThreadSpec * BitVec.ofNat 64 threads.length))
    cacheLineSize)

def notNull (ptr : BitVec 64) : Except Errno (BitVec 64) :=
  if ptr = 0 then .error .EINVAL else .ok ptr

theorem notNull_of_ne {ptr : BitVec 64} (hne : ptr ≠ 0) :
    notNull ptr = .ok ptr :=
  if_neg hne

structure RuntimeQueues where
  rxq : LrpcChanIn
  txq : LrpcChanOut
  qPtrs : BitVec 64
  deriving DecidableEq, Repr

/-- `ioqueues_init_thread`, which stops at an error -/
def ioqueuesInitThread (r : ShmRegion) (ts : ThreadSpec) :
    Except Errno RuntimeQueues := do
  let rxq ← shmInitLrpcIn r ts.rxq
  let txq ← shmInitLrpcOut r ts.txq
  let qPtrs ← notNull (shmptrToPtr r ts.qPtrs 4)
  .ok ⟨rxq, txq, qPtrs⟩

structure DaemonQueues where
  rxq : LrpcChanOut
  txq : LrpcChanIn
  qPtrs : BitVec 64
  deriving DecidableEq, Repr

/-- A round of the loop of `control_create_proc`. -/
def controlInitThread (reg : ShmRegion) (s : ThreadSpec) :
    Except Errno DaemonQueues := do
  let rxq ← shmInitLrpcOut reg s.rxq
  let txq ← shmInitLrpcIn reg s.txq
  let qPtrs ← notNull
    (shmptrToPtr reg s.qPtrs (BitVec.ofNat 64 sizeofQPtrs))
  .ok ⟨rxq, txq, qPtrs⟩

structure ShmRange where
  off : BitVec 64
  size : Nat
  deriving DecidableEq, Repr

/-- The pieces of a thread: its two tables, the write-back word of `txq` and
the queue pointers, which hold the write-back word of `rxq`. -/
def ThreadSpec.ranges (t : ThreadSpec) : List ShmRange :=
  [⟨t.rxq.msgBuf, 16 * 4096⟩, ⟨t.txq.msgBuf, 16 * 4096⟩, ⟨t.txq.wb, 4⟩,
    ⟨t.qPtrs, sizeofQPtrs⟩]

/-- The layout of a region: the pieces are disjoint, on cache lines of their
own, behind the header with its copy of `threads`, and within the region. -/
structure LaidOut (r : ShmRegion) (specs : List ThreadSpec) : Prop where
  disjoint : (specs.flatMap ThreadSpec.ranges).Pairwise fun x y =>
    x.off.toNat + x.size ≤ y.off.toNat ∨ y.off.toNat + y.size ≤ x.off.toNat
  aligned : ∀ x ∈ specs.flatMap ThreadSpec.ranges,
    (r.base + x.off).toNat % 64 = 0
  behind : ∀ x ∈ specs.flatMap ThreadSpec.ranges,
    sizeofControlHdr ≤ x.off.toNat ∧
      offsetofThreads + sizeofThreadSpec * specs.length ≤ x.off.toNat
  inside : ∀ x ∈ specs.flatMap ThreadSpec.ranges,
    x.off.toNat + x.size ≤ r.len.toNat
  words : ∀ t ∈ specs, t.rxq.wb = t.qPtrs ∧ t.rxq.msgCount = 4096 ∧
    t.txq.msgCount = 4096

def Converts (reg : ShmRegion) (shmptr len : BitVec 64) : Prop :=
  shmptrToPtr reg shmptr len ≠ 0 ∧
    shmptrToPtr reg shmptr len - reg.base = shmptr

/-- Both sides get the queues of a thread, at the same offsets. -/
structure Aliased (r reg : ShmRegion) (t : ThreadSpec) : Prop where
  converts : Converts reg t.rxq.msgBuf (lrpcMsgSize * t.rxq.msgCount) ∧
    Converts reg t.rxq.wb 4 ∧
    Converts reg t.txq.msgBuf (lrpcMsgSize * t.txq.msgCount) ∧
    Converts reg t.txq.wb 4 ∧
    Converts reg t.qPtrs (BitVec.ofNat 64 sizeofQPtrs)
  same : ∃ rt dm, ioqueuesInitThread r t = .ok rt ∧
    controlInitThread reg t = .ok dm ∧
    dm.rxq.tbl - reg.base = rt.rxq.tbl - r.base ∧
    dm.rxq.recvHeadWb - reg.base = rt.rxq.recvHeadWb - r.base ∧
    dm.rxq.size = rt.rxq.size ∧
    dm.txq.tbl - reg.base = rt.txq.tbl - r.base ∧
    dm.txq.recvHeadWb - reg.base = rt.txq.recvHeadWb - r.base ∧
    dm.txq.size = rt.txq.size ∧
    dm.qPtrs - reg.base = rt.qPtrs - r.base

section Sizes

theorem sizeofThreadSpec_eq : sizeofThreadSpec = 64 := rfl

theorem sizeofControlHdr_eq : sizeofControlHdr = 96 := rfl

theorem offsetofThreads_eq : offsetofThreads = 32 := rfl

theorem sizeofQPtrs_eq : sizeofQPtrs = 12 := rfl

theorem alignUp_table :
    alignUp (lrpcMsgSize * commandQueueMcount) cacheLineSize =
      BitVec.ofNat 64 65536 := by
  decide

theorem alignUp_word : alignUp 4 cacheLineSize = BitVec.ofNat 64 64 := by
  decide

theorem alignUp_qPtrs :
    alignUp (BitVec.ofNat 64 sizeofQPtrs) cacheLineSize =
      BitVec.ofNat 64 64 := by
  decide

def layoutLen (n : Nat) : Nat := 128 + 64 * n + 131200 * n

theorem calculateShmSpace_toNat {n : Nat} (hn : n ≤ ncpu) :
    (calculateShmSpace n).toNat = roundUp (layoutLen n) pgsize2MB := by
  have hcpu : ncpu = 256 := rfl
  have hpage : pgsize2MB = 2 ^ 21 := rfl
  have hhdr : (BitVec.ofNat 64 sizeofControlHdr +
      BitVec.ofNat 64 sizeofThreadSpec * BitVec.ofNat 64 n).toNat =
        96 + 64 * n := by
    rw [sizeofControlHdr_eq, sizeofThreadSpec_eq]
    bv_omega
  have hline : cacheLineSize = BitVec.ofNat 64 (2 ^ 6) := rfl
  have hrounded : alignUp (BitVec.ofNat 64 sizeofControlHdr +
      BitVec.ofNat 64 sizeofThreadSpec * BitVec.ofNat 64 n) cacheLineSize =
        BitVec.ofNat 64 (128 + 64 * n) := by
    apply BitVec.eq_of_toNat_eq
    rw [hline, alignUp_toNat (by decide) (by omega) (by omega), hhdr,
      BitVec.toNat_ofNat]
    simp only [roundUp]
    omega
  have hsum : (BitVec.ofNat 64 (128 + 64 * n) +
      BitVec.ofNat 64 65536 * BitVec.ofNat 64 n +
      (BitVec.ofNat 64 65536 + BitVec.ofNat 64 64) * BitVec.ofNat 64 n +
      BitVec.ofNat 64 64 * BitVec.ofNat 64 n).toNat = layoutLen n := by
    simp only [← BitVec.ofNat_add, ← BitVec.ofNat_mul]
    rw [BitVec.toNat_ofNat, Nat.mod_eq_of_lt (by omega), layoutLen]
    omega
  simp only [calculateShmSpace, hrounded, alignUp_table, alignUp_word,
    alignUp_qPtrs]
  rw [hpage, alignUp_toNat (by decide)] <;> rw [hsum]
  · rw [layoutLen]
    omega
  · rw [layoutLen]
    omega

end Sizes

def specAt (off : Nat) : ThreadSpec where
  rxq := ⟨commandQueueMcount, BitVec.ofNat 64 off, BitVec.ofNat 64 (off + 131136)⟩
  txq := ⟨commandQueueMcount, BitVec.ofNat 64 (off + 65536),
    BitVec.ofNat 64 (off + 131072)⟩
  qPtrs := BitVec.ofNat 64 (off + 131136)

section Layout

variable {r reg : ShmRegion} {off n i : Nat} {tspecs : List ThreadSpec}

theorem ptrToShmptr_base (r : ShmRegion) (off : Nat) :
    ptrToShmptr r (r.base + BitVec.ofNat 64 off) = BitVec.ofNat 64 off := by
  rw [ptrToShmptr, BitVec.add_comm, BitVec.add_sub_cancel]

theorem setupThreads_eq (tspecs : List ThreadSpec) (off : Nat) :
    setupThreads r tspecs (r.base + BitVec.ofNat 64 off) =
      (List.range tspecs.length).map fun i => specAt (off + 131200 * i) := by
  induction tspecs generalizing off with
  | nil => rfl
  | cons tspec tspecs ih =>
    have hstep : setupThreads r (tspec :: tspecs)
        (r.base + BitVec.ofNat 64 off) =
        specAt off :: setupThreads r tspecs
          (r.base + BitVec.ofNat 64 (off + 131200)) := by
      simp only [setupThreads, ioqueueAlloc, queuePointersAlloc,
        alignUp_table, alignUp_word, alignUp_qPtrs, Bool.false_eq_true,
        if_false, if_true, BitVec.add_assoc, ← BitVec.ofNat_add,
        ptrToShmptr_base, Nat.add_assoc, Nat.reduceAdd, specAt]
    have hnext : ∀ i, off + 131200 + 131200 * i = off + 131200 * (i + 1) := by
      omega
    rw [hstep, ih, List.length_cons, List.range_succ_eq_map, List.map_cons,
      List.map_map, Nat.mul_zero, Nat.add_zero]
    simp only [hnext]
    rfl

theorem mem_ranges_specAt (hoff : off + 131200 < 2 ^ 64) {x : ShmRange}
    (hx : x ∈ (specAt off).ranges) :
    off ≤ x.off.toNat ∧ x.off.toNat + x.size ≤ off + 131200 ∧
      x.off.toNat % 64 = off % 64 := by
  have hq := sizeofQPtrs_eq
  simp only [ThreadSpec.ranges, specAt, List.mem_cons, List.not_mem_nil,
    or_false] at hx
  rcases hx with rfl | rfl | rfl | rfl <;>
    simp only [BitVec.toNat_ofNat] <;> omega

theorem ranges_specAt_sorted (hoff : off + 131200 < 2 ^ 64) :
    (specAt off).ranges.Pairwise fun x y =>
      x.off.toNat + x.size ≤ y.off.toNat := by
  simp only [ThreadSpec.ranges, specAt, List.pairwise_cons, List.mem_cons,
    List.not_mem_nil, or_false, forall_eq_or_imp, forall_eq, BitVec.toNat_ofNat]
  refine ⟨⟨?_, ?_, ?_⟩, ⟨?_, ?_⟩, ?_, nofun, List.Pairwise.nil⟩ <;> omega

def layoutSpecs (n : Nat) : List ThreadSpec :=
  (List.range n).map fun i => specAt (128 + 64 * n + 131200 * i)

theorem mem_layoutSpecs {t : ThreadSpec} :
    t ∈ layoutSpecs n ↔ ∃ i < n, specAt (128 + 64 * n + 131200 * i) = t := by
  simp [layoutSpecs]

theorem part_le (hi : i < n) :
    128 + 64 * n + 131200 * i + 131200 ≤ layoutLen n := by
  rw [layoutLen]
  omega

theorem layout_fits (hn : n ≤ ncpu) (hlen : r.len = calculateShmSpace n) :
    layoutLen n ≤ r.len.toNat ∧ r.len.toNat < 2 ^ 32 := by
  have hcpu : ncpu = 256 := rfl
  have hpage : pgsize2MB = 2 ^ 21 := rfl
  rw [hlen, calculateShmSpace_toNat hn, hpage]
  simp only [roundUp, layoutLen]
  omega

theorem ioqueuesShmSetup_eq (hpos : 1 ≤ tspecs.length)
    (hn : tspecs.length ≤ ncpu) (hlen : r.len = calculateShmSpace tspecs.length)
    (halign : r.base.toNat % 64 = 0)
    (hregion : r.base.toNat + r.len.toNat ≤ 2 ^ 64) :
    ioqueuesShmSetup r tspecs = layoutSpecs tspecs.length := by
  have hcpu : ncpu = 256 := rfl
  have hfits := (layout_fits hn hlen).1
  rw [layoutLen] at hfits
  have hline : cacheLineSize = BitVec.ofNat 64 (2 ^ 6) := rfl
  have hptr : (r.base + (BitVec.ofNat 64 sizeofControlHdr +
      BitVec.ofNat 64 sizeofThreadSpec * BitVec.ofNat 64 tspecs.length)).toNat =
      r.base.toNat + 96 + 64 * tspecs.length := by
    rw [sizeofControlHdr_eq, sizeofThreadSpec_eq]
    bv_omega
  have hstart : alignUp (r.base + (BitVec.ofNat 64 sizeofControlHdr +
      BitVec.ofNat 64 sizeofThreadSpec *
        BitVec.ofNat 64 tspecs.length)) cacheLineSize =
      r.base + BitVec.ofNat 64 (128 + 64 * tspecs.length) := by
    apply BitVec.eq_of_toNat_eq
    rw [hline, alignUp_toNat (by decide) (by omega) (by omega), hptr,
      BitVec.toNat_add, BitVec.toNat_ofNat]
    simp only [roundUp]
    omega
  rw [ioqueuesShmSetup, hstart, setupThreads_eq]
  rfl

theorem layout_laidOut (hn : n ≤ ncpu) (hlen : r.len = calculateShmSpace n)
    (halign : r.base.toNat % 64 = 0) : LaidOut r (layoutSpecs n) := by
  have hcpu : ncpu = 256 := rfl
  obtain ⟨hfits, hsmall⟩ := layout_fits hn hlen
  have hpart : ∀ i < n, 128 + 64 * n + 131200 * i + 131200 ≤ r.len.toNat :=
    fun i hi => (part_le hi).trans hfits
  have hmem : ∀ x ∈ (layoutSpecs n).flatMap ThreadSpec.ranges,
      ∃ i < n, x ∈ (specAt (128 + 64 * n + 131200 * i)).ranges := by
    intro x hx
    obtain ⟨t, ht, hx⟩ := List.mem_flatMap.mp hx
    obtain ⟨i, hi, rfl⟩ := mem_layoutSpecs.mp ht
    exact ⟨i, hi, hx⟩
  constructor
  case disjoint =>
    apply List.Pairwise.imp (R := fun x y : ShmRange =>
      x.off.toNat + x.size ≤ y.off.toNat) Or.inl
    rw [List.pairwise_flatMap]
    constructor
    · intro t ht
      obtain ⟨i, hi, rfl⟩ := mem_layoutSpecs.mp ht
      have := hpart i hi
      exact ranges_specAt_sorted (by omega)
    · rw [layoutSpecs, List.pairwise_map]
      apply List.pairwise_lt_range.imp_of_mem
      intro i j hi hj hlt x hx y hy
      have hiLen := hpart i (List.mem_range.mp hi)
      have hjLen := hpart j (List.mem_range.mp hj)
      have hxEnd := (mem_ranges_specAt (by omega) hx).2.1
      have hyStart := (mem_ranges_specAt (by omega) hy).1
      omega
  case aligned =>
    intro x hx
    obtain ⟨i, hi, hx⟩ := hmem x hx
    have := hpart i hi
    have hrange := mem_ranges_specAt (by omega) hx
    rw [BitVec.toNat_add]
    omega
  case behind =>
    intro x hx
    obtain ⟨i, hi, hx⟩ := hmem x hx
    have := hpart i hi
    have hrange := mem_ranges_specAt (by omega) hx
    rw [sizeofControlHdr_eq, offsetofThreads_eq, sizeofThreadSpec_eq,
      layoutSpecs, List.length_map, List.length_range]
    omega
  case inside =>
    intro x hx
    obtain ⟨i, hi, hx⟩ := hmem x hx
    have := hpart i hi
    have hrange := mem_ranges_specAt (by omega) hx
    omega
  case words =>
    intro t ht
    obtain ⟨i, hi, rfl⟩ := mem_layoutSpecs.mp ht
    exact ⟨rfl, rfl, rfl⟩

theorem shmptrToPtr_inside {shmptr len : BitVec 64}
    (hsmall : reg.len.toNat < 2 ^ 32)
    (hin : shmptr.toNat + len.toNat ≤ reg.len.toNat) :
    shmptrToPtr reg shmptr len = shmptr + reg.base := by
  have hones : (BitVec.allOnes 64).toNat = 2 ^ 64 - 1 := BitVec.toNat_allOnes
  rw [shmptrToPtr, if_neg]
  bv_omega

theorem converts_inside {shmptr len : BitVec 64}
    (hsmall : reg.len.toNat < 2 ^ 32)
    (hregion : reg.base.toNat + reg.len.toNat ≤ 2 ^ 64)
    (hpos : 0 < shmptr.toNat) (hlen : 0 < len.toNat)
    (hin : shmptr.toNat + len.toNat ≤ reg.len.toNat) :
    Converts reg shmptr len := by
  rw [Converts, shmptrToPtr_inside hsmall hin]
  refine ⟨?_, BitVec.add_sub_cancel shmptr reg.base⟩
  bv_omega

theorem specAt_converts (hsmall : reg.len.toNat < 2 ^ 32)
    (hregion : reg.base.toNat + reg.len.toNat ≤ 2 ^ 64) (hpos : 0 < off)
    (hin : off + 131200 ≤ reg.len.toNat) :
    let t := specAt off
    Converts reg t.rxq.msgBuf (lrpcMsgSize * t.rxq.msgCount) ∧
      Converts reg t.rxq.wb 4 ∧
      Converts reg t.txq.msgBuf (lrpcMsgSize * t.txq.msgCount) ∧
      Converts reg t.txq.wb 4 ∧
      Converts reg t.qPtrs (BitVec.ofNat 64 sizeofQPtrs) ∧
      Converts reg t.qPtrs 4 := by
  have hnat : ∀ k, k ≤ 131200 → (BitVec.ofNat 64 (off + k)).toNat = off + k := by
    intro k hk
    rw [BitVec.toNat_ofNat, Nat.mod_eq_of_lt (by omega)]
  have htable : (lrpcMsgSize * commandQueueMcount).toNat = 65536 := by decide
  have hword : (4 : BitVec 64).toNat = 4 := rfl
  have hptrs : (BitVec.ofNat 64 sizeofQPtrs).toNat = 12 := by decide
  have hall : ∀ k (len : BitVec 64), k ≤ 131200 → 0 < len.toNat →
      k + len.toNat ≤ 131200 → Converts reg (BitVec.ofNat 64 (off + k)) len := by
    intro k len hk hlen hend
    have hk' := hnat k hk
    exact converts_inside hsmall hregion (by omega) hlen (by omega)
  exact ⟨hall 0 (lrpcMsgSize * commandQueueMcount) (by omega) (by omega)
      (by omega), hall 131136 4 (by omega) (by omega) (by omega),
    hall 65536 (lrpcMsgSize * commandQueueMcount) (by omega) (by omega)
      (by omega), hall 131072 4 (by omega) (by omega) (by omega),
    hall 131136 _ (by omega) (by omega) (by omega),
    hall 131136 4 (by omega) (by omega) (by omega)⟩

theorem shmInitLrpcIn_eq {q : QueueSpec}
    (hbuf : Converts reg q.msgBuf (lrpcMsgSize * q.msgCount))
    (hwb : Converts reg q.wb 4)
    (hpow : isPowerOfTwo (q.msgCount.setWidth 32) = true) :
    shmInitLrpcIn reg q =
      .ok ⟨shmptrToPtr reg q.msgBuf (lrpcMsgSize * q.msgCount),
        shmptrToPtr reg q.wb 4, 0, q.msgCount.setWidth 32⟩ := by
  rw [shmInitLrpcIn, shmInitLrpc_ok_iff, lrpcInitIn_ok_iff]
  exact ⟨hbuf.1, hwb.1, hpow, rfl⟩

theorem shmInitLrpcOut_eq {q : QueueSpec}
    (hbuf : Converts reg q.msgBuf (lrpcMsgSize * q.msgCount))
    (hwb : Converts reg q.wb 4)
    (hpow : isPowerOfTwo (q.msgCount.setWidth 32) = true) :
    shmInitLrpcOut reg q =
      .ok ⟨shmptrToPtr reg q.msgBuf (lrpcMsgSize * q.msgCount),
        shmptrToPtr reg q.wb 4, 0, 0, q.msgCount.setWidth 32⟩ := by
  rw [shmInitLrpcOut, shmInitLrpc_ok_iff, lrpcInitOut_ok_iff]
  exact ⟨hbuf.1, hwb.1, hpow, rfl⟩

theorem ioqueuesInitThread_eq {t : ThreadSpec} {rxq : LrpcChanIn}
    {txq : LrpcChanOut} (hrxq : shmInitLrpcIn r t.rxq = .ok rxq)
    (htxq : shmInitLrpcOut r t.txq = .ok txq)
    (hq : shmptrToPtr r t.qPtrs 4 ≠ 0) :
    ioqueuesInitThread r t = .ok ⟨rxq, txq, shmptrToPtr r t.qPtrs 4⟩ := by
  rw [ioqueuesInitThread, hrxq, htxq, notNull_of_ne hq]
  rfl

theorem controlInitThread_eq {t : ThreadSpec} {rxq : LrpcChanOut}
    {txq : LrpcChanIn} (hrxq : shmInitLrpcOut reg t.rxq = .ok rxq)
    (htxq : shmInitLrpcIn reg t.txq = .ok txq)
    (hq : shmptrToPtr reg t.qPtrs (BitVec.ofNat 64 sizeofQPtrs) ≠ 0) :
    controlInitThread reg t = .ok
      ⟨rxq, txq, shmptrToPtr reg t.qPtrs (BitVec.ofNat 64 sizeofQPtrs)⟩ := by
  rw [controlInitThread, hrxq, htxq, notNull_of_ne hq]
  rfl

theorem specAt_aliased (hr : r.len.toNat < 2 ^ 32)
    (hregion : r.base.toNat + r.len.toNat ≤ 2 ^ 64) (hlen : reg.len = r.len)
    (hregion' : reg.base.toNat + reg.len.toNat ≤ 2 ^ 64) (hpos : 0 < off)
    (hin : off + 131200 ≤ r.len.toNat) : Aliased r reg (specAt off) := by
  obtain ⟨hrx, hrxwb, htx, htxwb, hq, hq4⟩ := specAt_converts hr hregion hpos hin
  have hr' : reg.len.toNat < 2 ^ 32 := by rwa [hlen]
  have hin' : off + 131200 ≤ reg.len.toNat := by rwa [hlen]
  obtain ⟨hrx', hrxwb', htx', htxwb', hq', -⟩ :=
    specAt_converts hr' hregion' hpos hin'
  have hpow : isPowerOfTwo (commandQueueMcount.setWidth 32) = true := by decide
  constructor
  case converts => exact ⟨hrx', hrxwb', htx', htxwb', hq'⟩
  case same =>
    refine ⟨_, _, ioqueuesInitThread_eq (shmInitLrpcIn_eq hrx hrxwb hpow)
      (shmInitLrpcOut_eq htx htxwb hpow) hq4.1,
      controlInitThread_eq (shmInitLrpcOut_eq hrx' hrxwb' hpow)
        (shmInitLrpcIn_eq htx' htxwb' hpow) hq'.1, ?_⟩
    exact ⟨hrx'.2.trans hrx.2.symm, hrxwb'.2.trans hrxwb.2.symm, rfl,
      htx'.2.trans htx.2.symm, htxwb'.2.trans htxwb.2.symm, rfl,
      hq'.2.trans hq4.2.symm⟩

end Layout

/-- For every number of threads and every place of the region the queues are
laid out without overlap in the memory that is mapped, and the daemon, wherever
it maps the region, finds each of them where the runtime has it. -/
theorem shm_layout (r : ShmRegion) (threads : List ThreadSpec)
    (hthreads : 1 ≤ threads.length ∧ threads.length ≤ ncpu)
    (hlen : r.len = calculateShmSpace threads.length)
    (halign : r.base.toNat % 64 = 0)
    (hregion : r.base.toNat + r.len.toNat ≤ 2 ^ 64) :
    (ioqueuesShmSetup r threads).length = threads.length ∧
      LaidOut r (ioqueuesShmSetup r threads) ∧
      ∀ base : BitVec 64, base.toNat + r.len.toNat ≤ 2 ^ 64 →
        ∀ t ∈ ioqueuesShmSetup r threads, Aliased r ⟨base, r.len⟩ t := by
  obtain ⟨hpos, hn⟩ := hthreads
  obtain ⟨hfits, hsmall⟩ := layout_fits hn hlen
  rw [ioqueuesShmSetup_eq hpos hn hlen halign hregion]
  refine ⟨?_, layout_laidOut hn hlen halign, ?_⟩
  · rw [layoutSpecs, List.length_map, List.length_range]
  · intro base hbase t ht
    obtain ⟨i, hi, rfl⟩ := mem_layoutSpecs.mp ht
    exact specAt_aliased hsmall hregion rfl hbase (by omega)
      ((part_le hi).trans hfits)

/-- Two threads, mapped at two addresses. -/
theorem shm_layout_two :
    let r : ShmRegion := ⟨0x7f0000000000, calculateShmSpace 2⟩
    let specs := ioqueuesShmSetup r (List.replicate 2 ⟨⟨0, 0, 0⟩, ⟨0, 0, 0⟩, 0⟩)
    LaidOut r specs ∧ ∀ t ∈ specs, Aliased r ⟨0x10000, r.len⟩ t := by
  intro r specs
  obtain ⟨-, hlaid, halias⟩ := shm_layout r
    (List.replicate 2 ⟨⟨0, 0, 0⟩, ⟨0, 0, 0⟩, 0⟩) (by decide) rfl (by decide)
    (by decide)
  exact ⟨hlaid, halias 0x10000 (by decide)⟩

end Libut.Runtime
