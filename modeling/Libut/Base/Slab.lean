import Libut.Base.ListHead
import Libut.Machine.Chain
import Libut.Machine.Checked
import Libut.Machine.System

/-!
The slab allocator (`base/slab.c`). A node hands out items of one size. It
carves them off its current page, first to last, and takes freed items from the
list that each page keeps of them. The link of that list is the first word of
the free item. A page that has no item left goes to the list of full pages and
comes back by way of the list of partial pages once enough of its items are
free again; when all of them are, it is given back.

Pages are named by their number from `PAGE_BASE_ADDR` on, counted in pages of
the node's size, which is how both `addr_to_lgpage` and `addr_to_smpage` find
the page of an item. For the statements the model keeps which pages the node
holds, how many items were carved off each, and the items that are allocated.
-/

namespace Libut.Base

open Function Machine

def pgsize4KB : Nat := 4096

def pgsize2MB : Nat := 2097152

/-- The page size that `SLAB_FLAG_LGPAGE` stands for. -/
def slabPgsize (lgpage : Bool) : Nat :=
  if lgpage then pgsize2MB else pgsize4KB

def pageBaseAddr : Nat := 0x100000000000

def slabChunkSize : Nat := 8

def slabPartialThresh : Nat := slabChunkSize / 2

def wordSize : BitVec 64 := 64

def cacheLineSize : BitVec 64 := 64

/-- What `__slab_create_node` sets for good. Sizes come out of `align_up` and
are divided by, so that they are positive and items start at words. -/
structure SlabNode where
  size : Nat
  offset : Nat
  /-- `SLAB_FLAG_LGPAGE` -/
  lgpage : Bool
  /-- `SLAB_FLAG_PAGES` -/
  pages : Bool
  nrElems : Nat
  size_pos : 0 < size
  size_word : 8 ∣ size
  offset_word : 8 ∣ offset

def alignUp (x align : BitVec 64) : BitVec 64 :=
  ((x - 1) ||| (align - 1)) + 1

theorem alignUp_dvd (x : BitVec 64) : 64 ∣ (alignUp x 64).toNat := by
  have hlow : ((x - 1) ||| (64 - 1)).toNat % 64 = 63 := by
    have hones : ∀ k < 64, k ||| 63 = 63 := by decide
    rw [BitVec.toNat_or]
    change ((x - 1).toNat ||| 63) % 2 ^ 6 = 63
    rw [Nat.or_mod_two_pow]
    exact hones _ (Nat.mod_lt _ (by decide))
  unfold alignUp
  rw [BitVec.toNat_add]
  change 64 ∣ (((x - 1) ||| (64 - 1)).toNat + 1) % 2 ^ 64
  omega

inductive SlabError
  /-- `-E2BIG` -/
  | tooBig
  /-- Division by an item size of 0. -/
  | divideByZero
  deriving DecidableEq, Repr

def slab4KBLimit : Nat := pgsize4KB / (slabPartialThresh * 2) / 64 * 64

def slab2MBLimit : Nat := pgsize2MB / (slabPartialThresh * 2) / 64 * 64

theorem zero_word : 8 ∣ 0 := dvd_zero 8

/-- The end of `slab_create`, which calls `__slab_create`. -/
def slabCreateSized (size : Nat) (hword : 8 ∣ size) (lgpage pages : Bool) :
    Except SlabError SlabNode :=
  if hzero : size = 0 then .error .divideByZero
  else .ok
    { size := size, offset := 0, lgpage := lgpage, pages := pages,
      nrElems := slabPgsize lgpage / size,
      size_pos := Nat.pos_of_ne_zero hzero, size_word := hword,
      offset_word := zero_word }

/-- The node that `slab_create` makes for each NUMA node. -/
def slabCreate (size : BitVec 64) (falseOkay lgpage pages : Bool) :
    Except SlabError SlabNode :=
  let aligned := alignUp size (if falseOkay then wordSize else cacheLineSize)
  have hword : 8 ∣ aligned.toNat := by
    have halign : (if falseOkay then wordSize else cacheLineSize) = 64 :=
      ite_self _
    change 8 ∣ (alignUp size (if falseOkay then _ else _)).toNat
    rw [halign]
    exact Dvd.dvd.trans (by decide) (alignUp_dvd size)
  if slab2MBLimit < aligned.toNat then .error .tooBig
  else
    slabCreateSized aligned.toNat hword
      (lgpage || decide (slab4KBLimit < aligned.toNat)) pages

def SlabNode.pgsize (n : SlabNode) : Nat := slabPgsize n.lgpage

def pageToAddr (n : SlabNode) (pg : Nat) : Nat := pageBaseAddr + pg * n.pgsize

def addrToPage (n : SlabNode) (a : Nat) : Nat := (a - pageBaseAddr) / n.pgsize

theorem slabCreateSized_fits {size : Nat} {hword : 8 ∣ size}
    {lgpage pages : Bool} {n : SlabNode} (hsize : 8 * size ≤ slabPgsize lgpage)
    (h : slabCreateSized size hword lgpage pages = .ok n) :
    slabPartialThresh < n.nrElems ∧
      n.nrElems * n.size + n.offset ≤ n.pgsize := by
  unfold slabCreateSized at h
  split_ifs at h with hzero
  cases h
  constructor
  · have hmany : 8 ≤ slabPgsize lgpage / size := by
      rw [Nat.le_div_iff_mul_le (Nat.pos_of_ne_zero hzero)]
      exact hsize
    exact Nat.lt_of_lt_of_le (by decide) hmany
  · exact Nat.div_mul_le_self _ _

/-- Nodes of `slab_create` have items for more than one chunk, and all of them
are on the page. -/
theorem slabCreate_fits {size : BitVec 64} {falseOkay lgpage pages : Bool}
    {n : SlabNode} (h : slabCreate size falseOkay lgpage pages = .ok n) :
    slabPartialThresh < n.nrElems ∧
      n.nrElems * n.size + n.offset ≤ n.pgsize := by
  unfold slabCreate at h
  extract_lets aligned hword at h
  split_ifs at h with hbig
  apply slabCreateSized_fits _ h
  have hlarge : slab2MBLimit * 8 = pgsize2MB := by decide
  have hsmall : slab4KBLimit * 8 = pgsize4KB := by decide
  unfold slabPgsize
  split_ifs with hlg
  · omega
  · rw [Bool.or_eq_true, decide_eq_true_eq] at hlg
    omega

/-- The two list heads of the node and the `link` of each page. -/
inductive SlabLink
  | fullList
  | partialList
  | link (pg : Nat)
  deriving DecidableEq

structure SlabState where
  pgOff : Nat
  curPg : Option Nat
  nrPages : Int
  links : Links SlabLink
  /-- `pg->next` -/
  next : Nat → Option Nat
  /-- `pg->item_count` -/
  itemCount : Nat → Int
  /-- The word at an address, read as `next_hdr`. -/
  hdr : Nat → Option Nat
  held : Nat → Bool
  carved : Nat → Nat
  live : List Nat

inductive SlabFault
  /-- The list has an entry that is not the link of a page. -/
  | badLink
  /-- `assert(n->pg_off < ...)`, which stops the build with `DEBUG`. The release
  build goes on and hands out an item past the end of the page; of all nodes only
  those of `node_slab` come to it. -/
  | pageEnd
  deriving DecidableEq, Repr

/-- `memset(page_to_addr(pg), 0, n->offset)`. -/
def clearHeader (n : SlabNode) (hdr : Nat → Option Nat) (pg : Nat) :
    Nat → Option Nat :=
  fun a => if pageToAddr n pg ≤ a ∧ a < pageToAddr n pg + n.offset then none
    else hdr a

/-- What `__slab_node_get_page` sets up on a new page. -/
def SlabState.setUpPage (n : SlabNode) (s : SlabState) (pg : Nat) : SlabState :=
  { s with
    hdr := if n.pages then clearHeader n s.hdr pg else s.hdr
    pgOff := n.offset
    itemCount := update s.itemCount pg n.nrElems
    next := update s.next pg none
    held := update s.held pg true
    carved := update s.carved pg 0 }

/-- `__slab_node_get_page`, where `fresh` is what `page_alloc_on_node` returns
if it is called. -/
def slabNodeGetPage (n : SlabNode) (s : SlabState) (fresh : Option Nat) :
    Except SlabFault (SlabState × Option Nat) :=
  match listPop s.links .partialList with
  | (links, some (.link pg)) => .ok ({ s with links := links }, some pg)
  | (_, some _) => .error .badLink
  | (_, none) =>
    match fresh with
    | none => .ok (s, none)
    | some pg => .ok (s.setUpPage n pg, some pg)

/-- The assignment to `cur_pg` in `__slab_node_alloc`. -/
def slabNodeRefill (n : SlabNode) (s : SlabState) (fresh : Option Nat) :
    Except SlabFault (SlabState × Option Nat) := do
  let (s, pg) ← slabNodeGetPage n s fresh
  match pg with
  | none => .ok ({ s with curPg := none }, none)
  | some pg =>
    .ok ({ s with curPg := some pg, nrPages := s.nrPages + 1 }, some pg)

/-- The first part of `__slab_node_alloc`, up to a page with a free item. -/
def slabNodeCurrent (n : SlabNode) (s : SlabState) (fresh : Option Nat) :
    Except SlabFault (SlabState × Option Nat) :=
  match s.curPg with
  | none => slabNodeRefill n s fresh
  | some pg =>
    if s.itemCount pg = 0 then
      slabNodeRefill n
        { s with links := listAdd s.links .fullList (.link pg) } fresh
    else .ok (s, some pg)

def SlabState.takeFree (s : SlabState) (pg hdr : Nat) : SlabState :=
  { s with
    next := update s.next pg (s.hdr hdr)
    itemCount := update s.itemCount pg (s.itemCount pg - 1)
    live := hdr :: s.live }

def SlabState.carve (n : SlabNode) (s : SlabState) (pg : Nat) : SlabState :=
  { s with
    pgOff := s.pgOff + n.size
    itemCount := update s.itemCount pg (s.itemCount pg - 1)
    carved := update s.carved pg (s.carved pg + 1)
    live := (pageToAddr n pg + s.pgOff) :: s.live }

/-- The second part of `__slab_node_alloc`, on the current page. -/
def slabNodeTake (n : SlabNode) (s : SlabState) (pg : Nat) :
    Except SlabFault (SlabState × Nat) :=
  match s.next pg with
  | some hdr => .ok (s.takeFree pg hdr, hdr)
  | none =>
    if s.pgOff < n.pgsize then
      .ok (s.carve n pg, pageToAddr n pg + s.pgOff)
    else .error .pageEnd

/-- `__slab_node_alloc`; the item is `none` when memory has run out. -/
def slabNodeAlloc (n : SlabNode) (s : SlabState) (fresh : Option Nat) :
    Except SlabFault (SlabState × Option Nat) := do
  let (s, pg) ← slabNodeCurrent n s fresh
  match pg with
  | none => .ok (s, none)
  | some pg =>
    let (s, item) ← slabNodeTake n s pg
    .ok (s, some item)

def slabNodePut (n : SlabNode) (s : SlabState) (item : Nat) : SlabState :=
  let pg := addrToPage n item
  { s with
    hdr := update s.hdr item (s.next pg)
    next := update s.next pg (some item)
    itemCount := update s.itemCount pg (s.itemCount pg + 1)
    live := s.live.erase item }

/-- What becomes of the page `pg` that an item was put back to. -/
def slabNodeSettle (n : SlabNode) (s : SlabState) (pg : Nat) : SlabState :=
  if s.curPg = some pg then s
  else if s.itemCount pg = slabPartialThresh then
    { s with
      links := listAdd (listDel s.links (.link pg)) .partialList (.link pg) }
  else if s.itemCount pg = n.nrElems then
    { s with
      links := listDel s.links (.link pg)
      held := update s.held pg false
      nrPages := s.nrPages - 1 }
  else s

def slabNodeFree (n : SlabNode) (s : SlabState) (item : Nat) : SlabState :=
  slabNodeSettle n (slabNodePut n s item) (addrToPage n item)

/-- The node as `__slab_create_node` leaves it, with nothing known of memory
otherwise. -/
def slabStart (s : SlabState) : Prop :=
  s.curPg = none ∧ s.pgOff = 0 ∧ s.nrPages = 0 ∧
  (∃ L, s.links = listHeadInit (listHeadInit L .fullList) .partialList) ∧
  (∀ pg, s.held pg = false) ∧ s.live = []

inductive SlabAct
  | alloc (fresh : Option Nat)
  | free (item : Nat)
  /-- A store by someone else, into an item they have allocated or a page that
  the node does not hold. -/
  | write (a : Nat) (v : Option Nat)
  /-- The `struct page` of a page that the node does not hold is written. -/
  | foreign (pg : Nat) (next : Option Nat) (count : Int)
      (linkNext linkPrev : SlabLink)

def SlabState.inLive (n : SlabNode) (s : SlabState) (a : Nat) : Prop :=
  ∃ item ∈ s.live, item ≤ a ∧ a < item + n.size

instance (n : SlabNode) (s : SlabState) (a : Nat) : Decidable (s.inLive n a) :=
  inferInstanceAs (Decidable (∃ item ∈ s.live, item ≤ a ∧ a < item + n.size))

def SlabState.pageFree (s : SlabState) (fresh : Option Nat) : Prop :=
  ∀ pg ∈ fresh, s.held pg = false

instance (s : SlabState) (fresh : Option Nat) : Decidable (s.pageFree fresh) :=
  inferInstanceAs (Decidable (∀ pg ∈ fresh, s.held pg = false))

def slabNext (n : SlabNode) (s : SlabState) : SlabAct → Option SlabState
  | .alloc fresh =>
    if s.pageFree fresh then
      ((slabNodeAlloc n s fresh).map Prod.fst).toOption
    else none
  | .free item => if item ∈ s.live then some (slabNodeFree n s item) else none
  | .write a v =>
    if s.inLive n a ∨ s.held (addrToPage n a) = false then
      some { s with hdr := update s.hdr a v }
    else none
  | .foreign pg next count linkNext linkPrev =>
    if s.held pg = false then
      some
        { s with
          next := update s.next pg next
          itemCount := update s.itemCount pg count
          links := storePrev (storeNext s.links (.link pg) linkNext)
            (.link pg) linkPrev }
    else none

def slabSystem (n : SlabNode) : System SlabState SlabAct where
  init := slabStart
  next := slabNext n

end Libut.Base
