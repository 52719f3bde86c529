import Libut.Base.Bitmap
import Libut.Base.SlabInit

/-!
Page structs and page addresses (`inc/base/page.h`, `page_init` in
`base/page.c`). The structs of all large pages are in one table, node by node,
and a large page is at the place of its struct in the table, counted in large
pages from `PAGE_BASE_ADDR`. A large page that is shattered into small pages
has their structs at its own start. Addresses are 64-bit words, and the
conversions between structs and pages are those of the header: shifts, masks
and differences of pointers.
-/

namespace Libut.Base

open Machine

def pgshift4KB : Nat := 12

def pgshift2MB : Nat := 21

section Words

/-- `PGMASK_4KB`, `PGMASK_2MB` -/
def pgmask (shift : Nat) : BitVec 64 := (1#64 <<< shift) - 1

/-- `PGN_4KB`, `PGN_2MB` -/
def pgn (shift : Nat) (la : BitVec 64) : BitVec 64 := la >>> shift

/-- `PGADDR_4KB`, `PGADDR_2MB` -/
def pgaddr (shift : Nat) (la : BitVec 64) : BitVec 64 := la &&& ~~~pgmask shift

end Words

def nnuma : Nat := 4

/-- `LGPAGE_META_LEN`, for `LGPAGE_META_NR_LGPAGES` of 1 -/
def lgpageMetaLen : Nat := 1 * pgsize2MB

def lgpageMetaEnts : Nat := lgpageMetaLen / sizeofPage

def lgpageNodeAddrLen : Nat := lgpageMetaEnts * pgsize2MB

/-- `frags + n`, for a pointer to page structs -/
def pagePtrAdd (frags n : BitVec 64) : BitVec 64 :=
  frags + n * BitVec.ofNat 64 sizeofPage

/-- `pg - frags`, for pointers to page structs -/
def pagePtrSub (pg frags : BitVec 64) : BitVec 64 :=
  (pg - frags).sdiv (BitVec.ofNat 64 sizeofPage)

def addrToNumaNode (addr : BitVec 64) : BitVec 32 :=
  ((addr - BitVec.ofNat 64 pageBaseAddr) /
    BitVec.ofNat 64 lgpageNodeAddrLen).setWidth 32

def lgpgn (addr : BitVec 64) : BitVec 64 :=
  pgn pgshift2MB (addr - BitVec.ofNat 64 pageBaseAddr)

/-- `PGN` -/
def smpgn (addr : BitVec 64) : BitVec 64 :=
  pgn pgshift4KB (addr - pgaddr pgshift2MB addr)

def addrToLgpage (pageTbl addr : BitVec 64) : BitVec 64 :=
  pagePtrAdd pageTbl (lgpgn addr)

def lgpageToAddr (pageTbl pg : BitVec 64) : BitVec 64 :=
  BitVec.ofNat 64 pageBaseAddr +
    pagePtrSub pg pageTbl * BitVec.ofNat 64 pgsize2MB

def addrToSmpage (addr : BitVec 64) : BitVec 64 :=
  pagePtrAdd (pgaddr pgshift2MB addr) (smpgn addr)

def smpageToAddr (pg : BitVec 64) : BitVec 64 :=
  pgaddr pgshift2MB pg +
    pagePtrSub pg (pgaddr pgshift2MB pg) * BitVec.ofNat 64 pgsize4KB

/-- `page_init`: what `page_tbl` is set to, where `mapped` is the reserved
piece of address space. -/
def pageInit (mapped : BitVec 64) : BitVec 64 :=
  alignUp mapped (BitVec.ofNat 64 pgsize2MB)

/-- What `page_init` sets `tbl` of a node to. -/
def lgpageNodeTbl (pageTbl : BitVec 64) (node : Nat) : BitVec 64 :=
  pageTbl + BitVec.ofNat 64 (node * lgpageMetaLen)

/-- `&node->tbl[k]` -/
def lgpageNodePage (pageTbl : BitVec 64) (node k : Nat) : BitVec 64 :=
  pagePtrAdd (lgpageNodeTbl pageTbl node) (BitVec.ofNat 64 k)

section Words

variable {shift : Nat}

theorem pgaddr_eq (hshift : shift < 64) (la : BitVec 64) :
    pgaddr shift la = (la >>> shift) <<< shift := by
  apply BitVec.eq_of_getLsbD_eq
  intro b hb
  rw [pgaddr, pgmask, BitVec.getLsbD_and, mask_getLsbD hshift hb,
    BitVec.getLsbD_shiftLeft, BitVec.getLsbD_ushiftRight]
  by_cases hle : shift ≤ b
  · simp [hle, hb, Nat.not_lt.mpr hle]
  · simp [hle, Nat.lt_of_not_le hle]

theorem pgaddr_toNat (hshift : shift < 64) (la : BitVec 64) :
    (pgaddr shift la).toNat = la.toNat / 2 ^ shift * 2 ^ shift := by
  have hle := Nat.div_mul_le_self la.toNat (2 ^ shift)
  rw [pgaddr_eq hshift, BitVec.toNat_shiftLeft, BitVec.toNat_ushiftRight,
    Nat.shiftRight_eq_div_pow, Nat.shiftLeft_eq,
    Nat.mod_eq_of_lt (hle.trans_lt la.isLt)]

theorem pgn_toNat (la : BitVec 64) :
    (pgn shift la).toNat = la.toNat / 2 ^ shift := by
  rw [pgn, BitVec.toNat_ushiftRight, Nat.shiftRight_eq_div_pow]

end Words

section Structs

variable {n k : Nat}

theorem pagePtrAdd_toNat (frags n : BitVec 64) :
    (pagePtrAdd frags n).toNat = (frags.toNat + n.toNat * 64) % 2 ^ 64 := by
  rw [pagePtrAdd, BitVec.toNat_add, BitVec.toNat_mul]
  change (_ + n.toNat * 64 % 2 ^ 64) % 2 ^ 64 = _
  omega

theorem pagePtrSub_add (frags : BitVec 64) {n : BitVec 64}
    (hn : n.toNat < 2 ^ 32) : pagePtrSub (pagePtrAdd frags n) frags = n := by
  have hdiff : (pagePtrAdd frags n - frags).toNat = n.toNat * 64 := by
    rw [BitVec.toNat_sub, pagePtrAdd_toNat]
    have hfrags := frags.isLt
    omega
  have hmsb : (pagePtrAdd frags n - frags).msb = false := by
    rw [BitVec.msb_eq_decide, hdiff]
    exact decide_eq_false (by omega)
  have hsize : (BitVec.ofNat 64 sizeofPage).msb = false := by decide
  apply BitVec.eq_of_toNat_eq
  rw [pagePtrSub, BitVec.sdiv_eq, hmsb, hsize]
  change ((pagePtrAdd frags n - frags) / BitVec.ofNat 64 sizeofPage).toNat = _
  rw [BitVec.toNat_udiv, hdiff]
  change n.toNat * 64 / 64 = n.toNat
  omega

theorem lgpageNodePage_eq (pageTbl : BitVec 64) (node k : Nat) :
    lgpageNodePage pageTbl node k =
      pagePtrAdd pageTbl (BitVec.ofNat 64 (node * lgpageMetaEnts + k)) := by
  have hlen : lgpageMetaLen = lgpageMetaEnts * sizeofPage := by decide
  simp only [lgpageNodePage, pagePtrAdd, lgpageNodeTbl, hlen, BitVec.ofNat_add,
    BitVec.ofNat_mul]
  rw [BitVec.add_mul, BitVec.mul_assoc, BitVec.add_assoc]

theorem lgpageToAddr_add (pageTbl : BitVec 64) (hn : n < 2 ^ 32) :
    lgpageToAddr pageTbl (pagePtrAdd pageTbl (BitVec.ofNat 64 n)) =
      BitVec.ofNat 64 (pageBaseAddr + n * pgsize2MB) := by
  have hnat : (BitVec.ofNat 64 n).toNat < 2 ^ 32 := by
    rw [BitVec.toNat_ofNat]
    omega
  rw [lgpageToAddr, pagePtrSub_add _ hnat, ← BitVec.ofNat_mul,
    ← BitVec.ofNat_add]

end Structs

section Large

variable {n off : Nat}

theorem lgpage_offset (hn : n < nnuma * lgpageMetaEnts) (hoff : off < pgsize2MB) :
    (BitVec.ofNat 64 (pageBaseAddr + n * pgsize2MB) + BitVec.ofNat 64 off -
      BitVec.ofNat 64 pageBaseAddr).toNat = n * pgsize2MB + off := by
  have hents : nnuma * lgpageMetaEnts = 131072 := by decide
  rw [BitVec.toNat_sub, BitVec.toNat_add, BitVec.toNat_ofNat,
    BitVec.toNat_ofNat, BitVec.toNat_ofNat]
  simp only [pageBaseAddr, pgsize2MB] at *
  omega

theorem addrToLgpage_addr (pageTbl : BitVec 64)
    (hn : n < nnuma * lgpageMetaEnts) (hoff : off < pgsize2MB) :
    addrToLgpage pageTbl
        (BitVec.ofNat 64 (pageBaseAddr + n * pgsize2MB) + BitVec.ofNat 64 off) =
      pagePtrAdd pageTbl (BitVec.ofNat 64 n) := by
  have hents : nnuma * lgpageMetaEnts = 131072 := by decide
  rw [addrToLgpage]
  congr 1
  apply BitVec.eq_of_toNat_eq
  rw [lgpgn, pgn_toNat, lgpage_offset hn hoff, BitVec.toNat_ofNat]
  simp only [pgsize2MB, pgshift2MB] at *
  omega

theorem addrToNumaNode_addr (hn : n < nnuma * lgpageMetaEnts)
    (hoff : off < pgsize2MB) :
    addrToNumaNode
        (BitVec.ofNat 64 (pageBaseAddr + n * pgsize2MB) + BitVec.ofNat 64 off) =
      BitVec.ofNat 32 (n / lgpageMetaEnts) := by
  have hents : lgpageMetaEnts = 32768 := by decide
  have hlen : (BitVec.ofNat 64 lgpageNodeAddrLen).toNat = 32768 * 2097152 := by
    decide
  apply BitVec.eq_of_toNat_eq
  rw [addrToNumaNode, BitVec.toNat_setWidth, BitVec.toNat_udiv,
    lgpage_offset hn hoff, hlen, BitVec.toNat_ofNat, hents]
  simp only [pgsize2MB] at *
  omega

end Large

section Small

variable (a : BitVec 64)

theorem smpgn_toNat : (smpgn a).toNat = a.toNat % 2097152 / 4096 := by
  have haddr := pgaddr_toNat (by decide : pgshift2MB < 64) a
  have hlt := a.isLt
  rw [smpgn, pgn_toNat, BitVec.toNat_sub, haddr]
  simp only [pgshift2MB, pgshift4KB]
  omega

theorem addrToSmpage_toNat :
    (addrToSmpage a).toNat =
      a.toNat / 2097152 * 2097152 + a.toNat % 2097152 / 4096 * 64 := by
  have haddr := pgaddr_toNat (by decide : pgshift2MB < 64) a
  have hlt := a.isLt
  rw [addrToSmpage, pagePtrAdd_toNat, smpgn_toNat, haddr]
  simp only [pgshift2MB]
  omega

theorem smpageToAddr_addrToSmpage :
    smpageToAddr (addrToSmpage a) = pgaddr pgshift4KB a := by
  have hbase : pgaddr pgshift2MB (addrToSmpage a) = pgaddr pgshift2MB a := by
    apply BitVec.eq_of_toNat_eq
    rw [pgaddr_toNat (by decide), pgaddr_toNat (by decide), addrToSmpage_toNat]
    simp only [pgshift2MB]
    omega
  have hnum : (smpgn a).toNat < 2 ^ 32 := by
    rw [smpgn_toNat]
    omega
  have hlt := a.isLt
  rw [smpageToAddr, hbase, addrToSmpage, pagePtrSub_add _ hnum]
  apply BitVec.eq_of_toNat_eq
  rw [BitVec.toNat_add, BitVec.toNat_mul, smpgn_toNat,
    pgaddr_toNat (by decide), pgaddr_toNat (by decide)]
  change (_ + _ * 4096 % 2 ^ 64) % 2 ^ 64 = _
  simp only [pgshift2MB, pgshift4KB]
  omega

end Small

theorem live_behind_offset {n : SlabNode} (hmany : slabPartialThresh < n.nrElems)
    (hfit : n.Fits) {s : SlabState} (hs : (slabSystem n).Reach anyStep s)
    {item : Nat} (hitem : item ∈ s.live) (pg : Nat) :
    item + n.size ≤ pageToAddr n pg ∨ pageToAddr n pg + n.offset ≤ item := by
  obtain ⟨⟨full, part, free, hpages, -⟩, -⟩ :=
    slabInv_reach hmany (.inl hfit) hs
  obtain ⟨j, hj, hplace⟩ := hpages.live_place hitem
  have hend := item_end hfit hj
  rw [itemAddr] at hplace
  unfold pageToAddr at hplace ⊢
  rcases Nat.lt_or_ge (addrToPage n item) pg with hlt | hge
  · have hgap := mul_gap (c := n.pgsize) hlt
    omega
  · have hle := Nat.mul_le_mul_right n.pgsize hge
    omega

structure PageMaps (pageTbl : BitVec 64) : Prop where
  /-- A struct of a node's table, its page and back, from any byte of it. -/
  large : ∀ node < nnuma, ∀ k < lgpageMetaEnts, ∀ off < pgsize2MB,
    addrToLgpage pageTbl
        (lgpageToAddr pageTbl (lgpageNodePage pageTbl node k) +
          BitVec.ofNat 64 off) = lgpageNodePage pageTbl node k ∧
      addrToNumaNode
        (lgpageToAddr pageTbl (lgpageNodePage pageTbl node k) +
          BitVec.ofNat 64 off) = BitVec.ofNat 32 node
  small : ∀ a, (smpageToAddr (addrToSmpage a)).toNat = a.toNat / 4096 * 4096
  /-- The structs of the small pages of one large page do not overlap. -/
  distinct : ∀ a b, pgaddr pgshift2MB a = pgaddr pgshift2MB b →
    pgaddr pgshift4KB a ≠ pgaddr pgshift4KB b →
    (addrToSmpage a).toNat + sizeofPage ≤ (addrToSmpage b).toNat ∨
      (addrToSmpage b).toNat + sizeofPage ≤ (addrToSmpage a).toNat
  inHeader : ∀ a, (pgaddr pgshift2MB a).toNat ≤ (addrToSmpage a).toNat ∧
    (addrToSmpage a).toNat + sizeofPage ≤
      (pgaddr pgshift2MB a).toNat + smpageMetaLen
  /-- The small pages handed out keep off these structs. -/
  handedOut : ∀ s, (slabSystem smpageSlab).Reach anyStep s →
    ∀ item ∈ s.live, ∀ node < nnuma, ∀ k < lgpageMetaEnts,
      item + pgsize4KB ≤
          (lgpageToAddr pageTbl (lgpageNodePage pageTbl node k)).toNat ∨
        (lgpageToAddr pageTbl (lgpageNodePage pageTbl node k)).toNat +
          smpageMetaLen ≤ item

theorem lgpage_number {node k : Nat} (hnode : node < nnuma)
    (hk : k < lgpageMetaEnts) :
    node * lgpageMetaEnts + k < nnuma * lgpageMetaEnts := by
  have hgap := mul_gap (c := lgpageMetaEnts) hnode
  omega

theorem lgpage_number_node {node k : Nat} (hk : k < lgpageMetaEnts) :
    (node * lgpageMetaEnts + k) / lgpageMetaEnts = node := by
  rw [Nat.mul_comm, Nat.mul_add_div (by decide), Nat.div_eq_of_lt hk,
    Nat.add_zero]

theorem lgpageToAddr_node (pageTbl : BitVec 64) {node k : Nat}
    (hnode : node < nnuma) (hk : k < lgpageMetaEnts) :
    lgpageToAddr pageTbl (lgpageNodePage pageTbl node k) =
      BitVec.ofNat 64
        (pageBaseAddr + (node * lgpageMetaEnts + k) * pgsize2MB) := by
  rw [lgpageNodePage_eq, lgpageToAddr_add]
  exact (lgpage_number hnode hk).trans_le (by decide)

theorem page_maps_inverse (mapped : BitVec 64) : PageMaps (pageInit mapped) := by
  constructor
  case large =>
    intro node hnode k hk off hoff
    have hn := lgpage_number hnode hk
    rw [lgpageToAddr_node _ hnode hk]
    constructor
    · rw [addrToLgpage_addr _ hn hoff, lgpageNodePage_eq]
    · rw [addrToNumaNode_addr hn hoff, lgpage_number_node hk]
  case small =>
    intro a
    rw [smpageToAddr_addrToSmpage, pgaddr_toNat (by decide)]
    rfl
  case distinct =>
    intro a b hlarge hsmall
    have hlarge' := congrArg BitVec.toNat hlarge
    have hsmall' : (pgaddr pgshift4KB a).toNat ≠ (pgaddr pgshift4KB b).toNat :=
      fun heq => hsmall (BitVec.eq_of_toNat_eq heq)
    rw [pgaddr_toNat (by decide), pgaddr_toNat (by decide)] at hlarge' hsmall'
    rw [addrToSmpage_toNat, addrToSmpage_toNat]
    have hsize : sizeofPage = 64 := by decide
    simp only [pgshift2MB, pgshift4KB] at hlarge' hsmall'
    omega
  case inHeader =>
    intro a
    have hmeta : smpageMetaLen = 32768 := by decide
    have hsize : sizeofPage = 64 := by decide
    rw [addrToSmpage_toNat, pgaddr_toNat (by decide)]
    simp only [pgshift2MB]
    omega
  case handedOut =>
    intro s hs item hitem node hnode k hk
    have hn := lgpage_number hnode hk
    have hents : nnuma * lgpageMetaEnts = 131072 := by decide
    have hstart : (BitVec.ofNat 64 (pageBaseAddr +
        (node * lgpageMetaEnts + k) * pgsize2MB)).toNat =
          pageToAddr smpageSlab (node * lgpageMetaEnts + k) := by
      rw [BitVec.toNat_ofNat]
      apply Nat.mod_eq_of_lt
      simp only [pageBaseAddr, pgsize2MB]
      omega
    have hfit : smpageSlab.Fits := by
      rw [SlabNode.Fits]
      decide
    rw [lgpageToAddr_node _ hnode hk, hstart]
    exact live_behind_offset (by decide) hfit hs hitem _

end Libut.Base
