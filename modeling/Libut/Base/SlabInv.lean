import Libut.Base.Slab

/-!
The representation invariant of a slab node. The items carved off a page are
those on its free list and those allocated, each once. Only the current page
may have items that are not carved yet, and then the carve offset of the node
belongs to it: a page stops being the current one when it has no item left, and
so nothing to carve.
-/

namespace Libut.Base

open Function Machine

variable {n : SlabNode} {s t : SlabState} {pg : Nat}

def itemAddr (n : SlabNode) (pg j : Nat) : Nat :=
  pageToAddr n pg + (n.offset + j * n.size)

def slots (n : SlabNode) (pg m : Nat) : List Nat :=
  (List.range m).map (itemAddr n pg)

def SlabNode.Fits (n : SlabNode) : Prop :=
  n.nrElems * n.size + n.offset ≤ n.pgsize

/-- The last item starts behind the page, so that no page is used up. -/
def SlabNode.Overruns (n : SlabNode) : Prop :=
  n.offset ≤ n.pgsize ∧ n.pgsize ≤ n.offset + (n.nrElems - 1) * n.size

def SlabState.OnPages (n : SlabNode) (s : SlabState) : Prop :=
  ∀ pg, s.held pg = true → ∀ j < s.carved pg, n.offset + j * n.size < n.pgsize

section Places

theorem pgsize_pos (n : SlabNode) : 0 < n.pgsize := by
  unfold SlabNode.pgsize slabPgsize
  split_ifs <;> decide

theorem addrToPage_offset {r : Nat} (hr : r < n.pgsize) :
    addrToPage n (pageToAddr n pg + r) = pg := by
  unfold addrToPage pageToAddr
  have hsub : pageBaseAddr + pg * n.pgsize + r - pageBaseAddr =
      r + pg * n.pgsize := by omega
  rw [hsub, Nat.add_mul_div_right _ _ (pgsize_pos n), Nat.div_eq_of_lt hr,
    Nat.zero_add]

theorem mul_gap {j k c : Nat} (hlt : j < k) : j * c + c ≤ k * c := by
  rw [← Nat.succ_mul]
  exact Nat.mul_le_mul_right c hlt

theorem item_end {j : Nat} (hfit : n.Fits) (hj : j < n.nrElems) :
    n.offset + j * n.size + n.size ≤ n.pgsize := by
  have hgap := mul_gap (c := n.size) hj
  unfold SlabNode.Fits at hfit
  omega

theorem SlabNode.offset_le (hnode : n.Fits ∨ n.Overruns) :
    n.offset ≤ n.pgsize := by
  rcases hnode with hfit | hover
  · unfold SlabNode.Fits at hfit
    omega
  · exact hover.1

theorem itemAddr_inj {j k : Nat} (h : itemAddr n pg j = itemAddr n pg k) :
    j = k := by
  unfold itemAddr at h
  exact Nat.eq_of_mul_eq_mul_right n.size_pos (by omega)

/-- Different items have no byte in common, on one page and, if they end on
their pages, on two. -/
theorem itemAddr_apart {pg' j k : Nat}
    (hends : pg = pg' ∨ n.Fits ∧ j < n.nrElems ∧ k < n.nrElems)
    (hne : itemAddr n pg j ≠ itemAddr n pg' k) :
    itemAddr n pg j + n.size ≤ itemAddr n pg' k ∨
      itemAddr n pg' k + n.size ≤ itemAddr n pg j := by
  rcases eq_or_ne pg pg' with rfl | hpg
  · unfold itemAddr at *
    rcases Nat.lt_trichotomy j k with hlt | rfl | hlt
    · have hitem := mul_gap (c := n.size) hlt
      omega
    · exact absurd rfl hne
    · have hitem := mul_gap (c := n.size) hlt
      omega
  · obtain ⟨hfit, hj, hk⟩ := hends.resolve_left hpg
    have hendj := item_end hfit hj
    have hendk := item_end hfit hk
    unfold itemAddr pageToAddr at *
    rcases Nat.lt_or_gt_of_ne hpg with hlt | hlt
    · have hpage := mul_gap (c := n.pgsize) hlt
      omega
    · have hpage := mul_gap (c := n.pgsize) hlt
      omega

theorem mem_slots {a m : Nat} :
    a ∈ slots n pg m ↔ ∃ j < m, itemAddr n pg j = a := by
  simp [slots]

theorem slots_nodup (n : SlabNode) (pg m : Nat) : (slots n pg m).Nodup :=
  List.nodup_range.map fun _ _ h => itemAddr_inj h

theorem slots_succ (n : SlabNode) (pg m : Nat) :
    slots n pg (m + 1) = slots n pg m ++ [itemAddr n pg m] := by
  rw [slots, List.range_succ, List.map_append]
  rfl

end Places

def SlabState.liveOn (n : SlabNode) (s : SlabState) (pg : Nat) : List Nat :=
  s.live.filter fun a => addrToPage n a = pg

structure PageOk (n : SlabNode) (s : SlabState) (pg : Nat) (fl : List Nat) :
    Prop where
  chain : Chain s.hdr (s.next pg) fl
  carved : s.carved pg ≤ n.nrElems
  items : (fl ++ s.liveOn n pg).Perm (slots n pg (s.carved pg))
  count : s.itemCount pg = fl.length + (n.nrElems - s.carved pg)

section Page

variable {fl : List Nat}

section

variable (h : PageOk n s pg fl)
include h

theorem PageOk.mem {a : Nat} (ha : a ∈ fl ++ s.liveOn n pg) :
    ∃ j < s.carved pg, itemAddr n pg j = a :=
  mem_slots.mp (h.items.mem_iff.mp ha)

theorem PageOk.mem_page {a : Nat} (hon : s.OnPages n) (hpg : s.held pg = true)
    (ha : a ∈ fl) : addrToPage n a = pg := by
  obtain ⟨j, hj, rfl⟩ := h.mem (List.mem_append_left _ ha)
  exact addrToPage_offset (hon pg hpg j hj)

theorem PageOk.nodup : (fl ++ s.liveOn n pg).Nodup :=
  h.items.nodup_iff.mpr (slots_nodup n pg _)

theorem PageOk.length : fl.length + (s.liveOn n pg).length = s.carved pg := by
  have hlength := h.items.length_eq
  rw [List.length_append, slots, List.length_map, List.length_range] at hlength
  exact hlength

theorem PageOk.congr (hhdr : ∀ a ∈ fl, t.hdr a = s.hdr a)
    (hnext : t.next pg = s.next pg) (hcarved : t.carved pg = s.carved pg)
    (hlive : t.liveOn n pg = s.liveOn n pg)
    (hcount : t.itemCount pg = s.itemCount pg) : PageOk n t pg fl where
  chain := by
    rw [hnext]
    exact h.chain.congr hhdr
  carved := hcarved ▸ h.carved
  items := by
    rw [hcarved, hlive]
    exact h.items
  count := by
    rw [hcarved, hcount]
    exact h.count

end

end Page

structure PagesInv (n : SlabNode) (s : SlabState) (free : Nat → List Nat) :
    Prop where
  page : ∀ pg, s.held pg = true → PageOk n s pg (free pg)
  carved : ∀ pg, s.held pg = true → s.curPg ≠ some pg →
    s.carved pg = n.nrElems
  cur : ∀ pg, s.curPg = some pg → s.held pg = true ∧
    (s.carved pg = n.nrElems ∨ s.pgOff = n.offset + s.carved pg * n.size)
  live : ∀ a ∈ s.live, s.held (addrToPage n a) = true

def slabLists (full part : List Nat) : SlabLink → Option (List SlabLink)
  | .fullList => some (full.map .link)
  | .partialList => some (part.map .link)
  | .link _ => none

/-- The lists hold the pages that are not the current one, by how many of their
items are free. -/
structure ListsInv (n : SlabNode) (s : SlabState) (full part : List Nat) :
    Prop where
  queues : Lists s.links (slabLists full part)
  bound : ∀ pg, s.held pg = true → s.curPg ≠ some pg →
    s.itemCount pg < n.nrElems
  full_iff : ∀ pg, pg ∈ full ↔ s.held pg = true ∧ s.curPg ≠ some pg ∧
    s.itemCount pg < slabPartialThresh
  part_iff : ∀ pg, pg ∈ part ↔ s.held pg = true ∧ s.curPg ≠ some pg ∧
    (slabPartialThresh : Int) ≤ s.itemCount pg

section Pages

variable {free : Nat → List Nat} {a : Nat}

theorem liveOn_push (hlive : t.live = a :: s.live) (hpg : addrToPage n a = pg) :
    t.liveOn n pg = a :: s.liveOn n pg := by
  rw [SlabState.liveOn, hlive, List.filter_cons_of_pos (by simpa using hpg)]
  rfl

theorem liveOn_push_other (hlive : t.live = a :: s.live)
    (hpg : addrToPage n a ≠ pg) : t.liveOn n pg = s.liveOn n pg := by
  rw [SlabState.liveOn, hlive, List.filter_cons_of_neg (by simpa using hpg)]
  rfl

theorem mem_liveOn : a ∈ s.liveOn n pg ↔ a ∈ s.live ∧ addrToPage n a = pg := by
  simp [SlabState.liveOn]

structure SamePages (s t : SlabState) : Prop where
  hdr : t.hdr = s.hdr
  next : t.next = s.next
  count : t.itemCount = s.itemCount
  carved : t.carved = s.carved
  live : t.live = s.live
  off : t.pgOff = s.pgOff

variable {fl : List Nat}

theorem PageOk.same (h : PageOk n s pg fl) (hst : SamePages s t) :
    PageOk n t pg fl := by
  apply h.congr
  · intro a _
    rw [hst.hdr]
  · rw [hst.next]
  · rw [hst.carved]
  · rw [SlabState.liveOn, hst.live]
    rfl
  · rw [hst.count]

theorem PagesInv.setCurrent (h : PagesInv n s free) (hst : SamePages s t)
    (hheld : t.held = s.held)
    (hold : ∀ pg, s.curPg = some pg → s.carved pg = n.nrElems)
    (hnew : ∀ pg, t.curPg = some pg →
      s.held pg = true ∧ s.carved pg = n.nrElems) : PagesInv n t free where
  page pg hpg := (h.page pg (hheld ▸ hpg)).same hst
  carved pg hpg _ := by
    rw [hst.carved]
    by_cases hcur : s.curPg = some pg
    · exact hold pg hcur
    · exact h.carved pg (hheld ▸ hpg) hcur
  cur pg hcur := by
    rw [hheld, hst.carved]
    exact ⟨(hnew pg hcur).1, .inl (hnew pg hcur).2⟩
  live a ha := by
    rw [hheld]
    exact h.live a (hst.live ▸ ha)

theorem PageOk.carved_of_empty (h : PageOk n s pg fl)
    (hcount : s.itemCount pg = 0) : s.carved pg = n.nrElems := by
  have hle := h.carved
  have heq := h.count
  omega

theorem clearHeader_other {a : Nat} (hoff : n.offset ≤ n.pgsize)
    (hne : addrToPage n a ≠ pg) (hdr : Nat → Option Nat) :
    clearHeader n hdr pg a = hdr a := by
  unfold clearHeader
  rw [if_neg]
  rintro ⟨hlow, hhigh⟩
  apply hne
  have hplace : a = pageToAddr n pg + (a - pageToAddr n pg) := by omega
  rw [hplace]
  apply addrToPage_offset
  omega

theorem PagesInv.liveOn_nil (h : PagesInv n s free) (hpg : s.held pg = false) :
    s.liveOn n pg = [] := by
  rw [List.eq_nil_iff_forall_not_mem]
  intro a ha
  obtain ⟨hlive, rfl⟩ := mem_liveOn.mp ha
  rw [h.live a hlive] at hpg
  cases hpg

theorem setUpPage_hdr {a : Nat} (hoff : n.offset ≤ n.pgsize)
    (hne : addrToPage n a ≠ pg) : (s.setUpPage n pg).hdr a = s.hdr a := by
  unfold SlabState.setUpPage
  simp only
  split_ifs
  · exact clearHeader_other hoff hne s.hdr
  · rfl

theorem PagesInv.fresh (h : PagesInv n s free) (hon : s.OnPages n)
    (hoff : n.offset ≤ n.pgsize) (hold : s.curPg = none)
    (hpg : s.held pg = false) (hst : SamePages (s.setUpPage n pg) t)
    (hheld : t.held = update s.held pg true) (hcur : t.curPg = some pg) :
    PagesInv n t (update free pg []) := by
  have hnext : t.next = update s.next pg none := hst.next
  have hcount : t.itemCount = update s.itemCount pg n.nrElems :=
    hst.count
  have hcarved : t.carved = update s.carved pg 0 := hst.carved
  have hliveOn : ∀ q, t.liveOn n q = s.liveOn n q := fun q => by
    rw [SlabState.liveOn, hst.live]
    rfl
  refine ⟨fun q hq => ?_, fun q hq hne => ?_, fun q hq => ?_, fun a ha => ?_⟩
  · rcases eq_or_ne q pg with rfl | hne
    · rw [update_self]
      constructor
      · rw [hnext, update_self]
        exact .nil
      · rw [hcarved, update_self]
        exact Nat.zero_le _
      · rw [hliveOn, h.liveOn_nil hpg, hcarved, update_self]
        exact .nil
      · rw [hcount, hcarved, update_self, update_self]
        simp
    · rw [hheld, update_of_ne hne] at hq
      rw [update_of_ne hne]
      have hok := h.page q hq
      apply hok.congr
      · intro a ha
        rw [hst.hdr]
        apply setUpPage_hdr hoff
        rwa [hok.mem_page hon hq ha]
      · rw [hnext, update_of_ne hne]
      · rw [hcarved, update_of_ne hne]
      · exact hliveOn q
      · rw [hcount, update_of_ne hne]
  · rw [hcur] at hne
    have hqne : q ≠ pg := fun heq => hne (heq ▸ rfl)
    rw [hheld, update_of_ne hqne] at hq
    rw [hcarved, update_of_ne hqne]
    apply h.carved q hq
    rw [hold]
    exact nofun
  · rw [hcur] at hq
    cases hq
    refine ⟨?_, .inr ?_⟩
    · rw [hheld, update_self]
    · rw [hst.off, hcarved, update_self, Nat.zero_mul]
      rfl
  · rw [hst.live] at ha
    rw [hheld]
    rcases eq_or_ne (addrToPage n a) pg with heq | hne
    · rw [heq, update_self]
    · rw [update_of_ne hne]
      exact h.live a ha

structure Taken (s t : SlabState) (pg item : Nat) : Prop where
  links : t.links = s.links
  held : t.held = s.held
  cur : t.curPg = s.curPg
  hdr : t.hdr = s.hdr
  live : t.live = item :: s.live
  count : t.itemCount = update s.itemCount pg (s.itemCount pg - 1)
  next : ∀ q, q ≠ pg → t.next q = s.next q
  carved : ∀ q, q ≠ pg → t.carved q = s.carved q

theorem takeFree_taken (s : SlabState) (pg item : Nat) :
    Taken s (s.takeFree pg item) pg item where
  links := rfl
  held := rfl
  cur := rfl
  hdr := rfl
  live := rfl
  count := rfl
  next _ hne := update_of_ne hne ..
  carved _ _ := rfl

theorem carve_taken (n : SlabNode) (s : SlabState) (pg : Nat) :
    Taken s (s.carve n pg) pg (pageToAddr n pg + s.pgOff) where
  links := rfl
  held := rfl
  cur := rfl
  hdr := rfl
  live := rfl
  count := rfl
  next _ _ := rfl
  carved _ hne := update_of_ne hne ..

theorem PagesInv.handOut {item : Nat} (h : PagesInv n s free)
    (hcur : s.curPg = some pg) (hitem : addrToPage n item = pg)
    (htaken : Taken s t pg item) (hok : PageOk n t pg fl)
    (hoff : t.carved pg = n.nrElems ∨
      t.pgOff = n.offset + t.carved pg * n.size) :
    PagesInv n t (update free pg fl) := by
  refine ⟨fun q hq => ?_, fun q hq hne => ?_, fun q hq => ?_, fun a ha => ?_⟩
  · rcases eq_or_ne q pg with rfl | hne
    · rw [update_self]
      exact hok
    · rw [update_of_ne hne]
      apply (h.page q (htaken.held ▸ hq)).congr
      · intro a _
        rw [htaken.hdr]
      · exact htaken.next q hne
      · exact htaken.carved q hne
      · apply liveOn_push_other htaken.live
        rw [hitem]
        exact hne.symm
      · rw [htaken.count, update_of_ne hne]
  · have hqne : q ≠ pg := fun heq => hne (by rw [htaken.cur, hcur, heq])
    rw [htaken.carved q hqne]
    exact h.carved q (htaken.held ▸ hq) (htaken.cur ▸ hne)
  · rw [htaken.cur, hcur] at hq
    cases hq
    rw [htaken.held]
    exact ⟨(h.cur pg hcur).1, hoff⟩
  · rw [htaken.live] at ha
    rw [htaken.held]
    rcases List.mem_cons.mp ha with rfl | ha
    · rw [hitem]
      exact (h.cur pg hcur).1
    · exact h.live a ha

theorem PageOk.takeFree {item : Nat} {rest : List Nat}
    (h : PageOk n s pg (item :: rest)) (hitem : addrToPage n item = pg) :
    PageOk n (s.takeFree pg item) pg rest where
  chain := by
    change Chain s.hdr (update s.next pg (s.hdr item) pg) rest
    rw [update_self]
    exact h.chain.2
  carved := h.carved
  items := by
    rw [liveOn_push rfl hitem]
    exact List.perm_middle.trans h.items
  count := by
    change update s.itemCount pg (s.itemCount pg - 1) pg =
      rest.length + (n.nrElems - s.carved pg : Int)
    rw [update_self, h.count, List.length_cons]
    omega

theorem PageOk.carve (h : PageOk n s pg []) (hroom : s.carved pg < n.nrElems)
    (hplace : s.pgOff = n.offset + s.carved pg * n.size)
    (hitem : addrToPage n (pageToAddr n pg + s.pgOff) = pg) :
    PageOk n (s.carve n pg) pg [] := by
  have hcarved : (s.carve n pg).carved pg = s.carved pg + 1 :=
    update_self ..
  constructor
  · exact h.chain
  · rw [hcarved]
    exact hroom
  · rw [hcarved, liveOn_push rfl hitem, slots_succ, itemAddr, ← hplace]
    apply List.Perm.symm
    apply (List.perm_append_singleton _ _).trans
    exact h.items.symm.cons _
  · change update s.itemCount pg (s.itemCount pg - 1) pg = _
    rw [update_self, h.count, hcarved, List.length_nil]
    omega

theorem slabNodeTake_ok (h : PagesInv n s free) (hon : s.OnPages n)
    (hcur : s.curPg = some pg) (hpos : 0 < s.itemCount pg) :
    slabNodeTake n s pg = .error .pageEnd ∧ ¬n.Fits ∨
    ∃ t item fl, slabNodeTake n s pg = .ok (t, item) ∧
      PagesInv n t (update free pg fl) ∧ Taken s t pg item ∧ t.OnPages n := by
  obtain ⟨hheld, hoff⟩ := h.cur pg hcur
  have hok := h.page pg hheld
  have hchain := hok.chain
  unfold slabNodeTake
  cases hnext : s.next pg with
  | some item =>
    rw [hnext] at hchain
    obtain ⟨rest, hfl, -⟩ := hchain.pop
    rw [hfl] at hok
    have hitem := hok.mem_page hon hheld List.mem_cons_self
    have htaken := takeFree_taken s pg item
    refine .inr ⟨_, item, rest, rfl, ?_, htaken, hon⟩
    exact h.handOut hcur hitem htaken (hok.takeFree hitem) hoff
  | none =>
    rw [hnext] at hchain
    rw [hchain.eq_nil] at hok
    have hroom : s.carved pg < n.nrElems := by
      have hcount := hok.count
      rw [List.length_nil] at hcount
      omega
    have hplace := hoff.resolve_left (Nat.ne_of_lt hroom)
    by_cases hlt : s.pgOff < n.pgsize
    · have hitem : addrToPage n (pageToAddr n pg + s.pgOff) = pg :=
        addrToPage_offset hlt
      have htaken := carve_taken n s pg
      have hcarved : (s.carve n pg).carved pg = s.carved pg + 1 :=
        update_self ..
      refine .inr ⟨_, _, [], if_pos hlt, ?_, htaken, fun q hq j hj => ?_⟩
      · apply h.handOut hcur hitem htaken (hok.carve hroom hplace hitem)
        rw [hcarved, Nat.add_mul, Nat.one_mul, ← Nat.add_assoc, ← hplace]
        exact .inr rfl
      · rcases eq_or_ne q pg with rfl | hne
        · rw [hcarved] at hj
          rcases Nat.lt_succ_iff_lt_or_eq.mp hj with hj | rfl
          · exact hon q hq j hj
          · exact hplace ▸ hlt
        · exact hon q hq j (htaken.carved q hne ▸ hj)
    · refine .inl ⟨if_neg hlt, fun hfit => hlt ?_⟩
      have hend := item_end hfit hroom
      have hsize := n.size_pos
      omega

theorem PageOk.put {item : Nat} (h : PageOk n s (addrToPage n item) fl)
    (hitem : item ∈ s.live) :
    PageOk n (slabNodePut n s item) (addrToPage n item) (item :: fl) := by
  have hsplit : (s.liveOn n (addrToPage n item)).Perm
      (item :: (slabNodePut n s item).liveOn n (addrToPage n item)) := by
    have hperm := (List.perm_cons_erase hitem).filter
      fun a => addrToPage n a = addrToPage n item
    rwa [List.filter_cons_of_pos (by simp)] at hperm
  have hnot : item ∉ fl := by
    intro hmem
    have hdisj := (List.nodup_append.mp h.nodup).2.2
    exact hdisj item hmem item (mem_liveOn.mpr ⟨hitem, rfl⟩) rfl
  constructor
  · change Chain (update s.hdr item (s.next (addrToPage n item)))
      (update s.next (addrToPage n item) (some item) _) _
    rw [update_self]
    exact h.chain.push hnot
  · exact h.carved
  · apply List.Perm.trans _ h.items
    exact (List.perm_middle.symm).trans (hsplit.symm.append_left fl)
  · change update s.itemCount _ (s.itemCount _ + 1) _ =
      ((item :: fl).length : Int) + (n.nrElems - s.carved _ : Int)
    rw [update_self, h.count, List.length_cons]
    omega

theorem PagesInv.put {item : Nat} (h : PagesInv n s free) (hon : s.OnPages n)
    (hitem : item ∈ s.live) :
    PagesInv n (slabNodePut n s item)
      (update free (addrToPage n item) (item :: free (addrToPage n item))) where
  page q hq := by
    rcases eq_or_ne q (addrToPage n item) with rfl | hne
    · rw [update_self]
      exact (h.page _ hq).put hitem
    · rw [update_of_ne hne]
      have hok := h.page q hq
      apply hok.congr
      · intro a ha
        apply update_of_ne
        rintro rfl
        exact hne (hok.mem_page hon hq ha).symm
      · exact update_of_ne hne ..
      · rfl
      · have hnot : item ∉ s.liveOn n q := fun hmem =>
          hne (mem_liveOn.mp hmem).2.symm
        exact List.erase_filter.symm.trans (List.erase_of_not_mem hnot)
      · exact update_of_ne hne ..
  carved := h.carved
  cur := h.cur
  live a ha := h.live a (List.mem_of_mem_erase ha)

end Pages

section Queues

variable {L : Links SlabLink} {full part : List Nat}

theorem slabLists_full (full' : List Nat) :
    update (slabLists full part) .fullList (some (full'.map .link)) =
      slabLists full' part := by
  funext h
  cases h with
  | fullList => exact update_self ..
  | partialList | link pg => exact update_of_ne (by simp) ..

theorem slabLists_part (part' : List Nat) :
    update (slabLists full part) .partialList
      (some (part'.map .link)) = slabLists full part' := by
  funext h
  cases h with
  | fullList | link pg => exact update_of_ne (by simp) ..
  | partialList => exact update_self ..

theorem mem_map_pageLink {pgs : List Nat} :
    SlabLink.link pg ∈ pgs.map SlabLink.link ↔ pg ∈ pgs := by
  simp

theorem link_unlisted (hfull : pg ∉ full) (hpart : pg ∉ part) :
    Unlisted (slabLists full part) (.link pg) := by
  intro h xs hxs hmem
  cases h with
  | fullList =>
    cases hxs
    simp only [List.mem_cons, reduceCtorEq, false_or] at hmem
    exact hfull (mem_map_pageLink.mp hmem)
  | partialList =>
    cases hxs
    simp only [List.mem_cons, reduceCtorEq, false_or] at hmem
    exact hpart (mem_map_pageLink.mp hmem)
  | link q => cases hxs

theorem add_full (h : Lists L (slabLists full part)) (hfull : pg ∉ full)
    (hpart : pg ∉ part) :
    Lists (listAdd L .fullList (.link pg)) (slabLists (pg :: full) part) := by
  have hadd := listAdd_lists h (h := .fullList) rfl (link_unlisted hfull hpart)
  rw [← List.map_cons, slabLists_full] at hadd
  exact hadd

theorem add_part (h : Lists L (slabLists full part)) (hfull : pg ∉ full)
    (hpart : pg ∉ part) :
    Lists (listAdd L .partialList (.link pg)) (slabLists full (pg :: part)) := by
  have hadd := listAdd_lists h (h := .partialList) rfl
    (link_unlisted hfull hpart)
  rw [← List.map_cons, slabLists_part] at hadd
  exact hadd

theorem mem_without {xs ys : List Nat} (hnodup : (xs ++ pg :: ys).Nodup)
    (q : Nat) : q ∈ xs ++ ys ↔ q ∈ xs ++ pg :: ys ∧ q ≠ pg := by
  have hnot : pg ∉ xs ++ ys := (List.nodup_middle.mp hnodup).notMem
  constructor
  · intro hq
    refine ⟨?_, fun heq => hnot (heq ▸ hq)⟩
    rw [List.mem_append] at hq
    rw [List.mem_append, List.mem_cons]
    exact hq.imp_right .inr
  · rintro ⟨hq, hne⟩
    rw [List.mem_append, List.mem_cons] at hq
    rw [List.mem_append]
    exact hq.imp_right fun hq => hq.resolve_left hne

theorem pages_nodup {m : SlabLink → Option (List SlabLink)} {h : SlabLink}
    {pgs : List Nat} (hl : Lists L m) (hm : m h = some (pgs.map .link)) :
    pgs.Nodup :=
  (List.nodup_cons.mp (hl.listed h _ hm).nodup).2.of_map

theorem del_page {m : SlabLink → Option (List SlabLink)} {h : SlabLink}
    {pgs : List Nat} (hl : Lists L m) (hm : m h = some (pgs.map .link))
    (hpg : pg ∈ pgs) :
    ∃ pgs' : List Nat, Lists (listDel L (.link pg))
        (update m h (some (pgs'.map .link))) ∧
      ∀ q, q ∈ pgs' ↔ q ∈ pgs ∧ q ≠ pg := by
  have hnodup := pages_nodup hl hm
  obtain ⟨xs, ys, rfl⟩ := List.append_of_mem hpg
  refine ⟨xs ++ ys, ?_, mem_without hnodup⟩
  rw [List.map_append, List.map_cons] at hm
  rw [List.map_append]
  exact listDel_lists hl hm

theorem del_full (h : Lists L (slabLists full part)) (hpg : pg ∈ full) :
    ∃ full', Lists (listDel L (.link pg)) (slabLists full' part) ∧
      ∀ q, q ∈ full' ↔ q ∈ full ∧ q ≠ pg := by
  obtain ⟨full', hdel, hmem⟩ := del_page h (h := .fullList) rfl hpg
  rw [slabLists_full] at hdel
  exact ⟨full', hdel, hmem⟩

theorem del_part (h : Lists L (slabLists full part)) (hpg : pg ∈ part) :
    ∃ part', Lists (listDel L (.link pg)) (slabLists full part') ∧
      ∀ q, q ∈ part' ↔ q ∈ part ∧ q ≠ pg := by
  obtain ⟨part', hdel, hmem⟩ := del_page h (h := .partialList) rfl hpg
  rw [slabLists_part] at hdel
  exact ⟨part', hdel, hmem⟩

variable {full' part' : List Nat}

section

variable (h : ListsInv n s full part)
include h

theorem ListsInv.move (pg : Nat)
    (hqueues : Lists t.links (slabLists full' part'))
    (hother : ∀ q, q ≠ pg → t.held q = s.held q ∧
      (t.curPg = some q ↔ s.curPg = some q) ∧ t.itemCount q = s.itemCount q ∧
      (q ∈ full' ↔ q ∈ full) ∧ (q ∈ part' ↔ q ∈ part))
    (hbound : t.held pg = true → t.curPg ≠ some pg → t.itemCount pg < n.nrElems)
    (hpgFull : pg ∈ full' ↔ t.held pg = true ∧ t.curPg ≠ some pg ∧
      t.itemCount pg < slabPartialThresh)
    (hpgPart : pg ∈ part' ↔ t.held pg = true ∧ t.curPg ≠ some pg ∧
      (slabPartialThresh : Int) ≤ t.itemCount pg) :
    ListsInv n t full' part' := by
  refine ⟨hqueues, fun q => ?_, fun q => ?_, fun q => ?_⟩
  · rcases eq_or_ne q pg with rfl | hne
    · exact hbound
    · obtain ⟨hheld, hcur, hcount, -⟩ := hother q hne
      rw [hheld, Ne, hcur, hcount]
      exact h.bound q
  · rcases eq_or_ne q pg with rfl | hne
    · exact hpgFull
    · obtain ⟨hheld, hcur, hcount, hfull, -⟩ := hother q hne
      rw [hfull, hheld, Ne, hcur, hcount]
      exact h.full_iff q
  · rcases eq_or_ne q pg with rfl | hne
    · exact hpgPart
    · obtain ⟨hheld, hcur, hcount, -, hpart⟩ := hother q hne
      rw [hpart, hheld, Ne, hcur, hcount]
      exact h.part_iff q

theorem ListsInv.takeOff (pg : Nat)
    (hqueues : Lists t.links (slabLists full' part'))
    (hother : ∀ q, q ≠ pg → t.held q = s.held q ∧
      (t.curPg = some q ↔ s.curPg = some q) ∧ t.itemCount q = s.itemCount q ∧
      (q ∈ full' ↔ q ∈ full) ∧ (q ∈ part' ↔ q ∈ part))
    (hoff : t.held pg = true → t.curPg = some pg) (hfull : pg ∉ full')
    (hpart : pg ∉ part') : ListsInv n t full' part' := by
  apply h.move pg hqueues hother
  · exact fun hheld hne => absurd (hoff hheld) hne
  · exact iff_of_false hfull fun hpg => hpg.2.1 (hoff hpg.1)
  · exact iff_of_false hpart fun hpg => hpg.2.1 (hoff hpg.1)

theorem ListsInv.cur_off (hcur : s.curPg = some pg) : pg ∉ full ∧ pg ∉ part :=
  ⟨fun hmem => ((h.full_iff pg).mp hmem).2.1 hcur,
    fun hmem => ((h.part_iff pg).mp hmem).2.1 hcur⟩

theorem ListsInv.held_off (hpg : s.held pg = false) : pg ∉ full ∧ pg ∉ part := by
  have hnot : ¬ s.held pg = true := by
    rw [hpg]
    exact nofun
  exact ⟨fun hmem => hnot ((h.full_iff pg).mp hmem).1,
    fun hmem => hnot ((h.part_iff pg).mp hmem).1⟩

theorem ListsInv.current (hcur : s.curPg = some pg) (hlinks : t.links = s.links)
    (hheld : t.held = s.held) (hcur' : t.curPg = s.curPg)
    (hcount : ∀ q, q ≠ pg → t.itemCount q = s.itemCount q) :
    ListsInv n t full part := by
  obtain ⟨hfull, hpart⟩ := h.cur_off hcur
  refine h.takeOff pg (hlinks ▸ h.queues) (fun q hne => ?_)
    (fun _ => hcur'.trans hcur) hfull hpart
  rw [hheld, hcur']
  exact ⟨rfl, Iff.rfl, hcount q hne, Iff.rfl, Iff.rfl⟩

theorem ListsInv.park (hcur : s.curPg = some pg)
    (hheld : s.held pg = true) (hcount : s.itemCount pg = 0)
    (hmany : slabPartialThresh < n.nrElems) :
    ListsInv n
      { s with
        links := listAdd s.links .fullList (.link pg), curPg := none }
      (pg :: full) part := by
  obtain ⟨hfull, hpart⟩ := h.cur_off hcur
  apply h.move pg (add_full h.queues hfull hpart)
  · intro q hne
    rw [hcur, List.mem_cons, or_iff_right hne]
    refine ⟨rfl, ?_, rfl, Iff.rfl, Iff.rfl⟩
    exact iff_of_false nofun fun heq => hne (Option.some.inj heq).symm
  · intro _ _
    change s.itemCount pg < n.nrElems
    omega
  · refine iff_of_true List.mem_cons_self ⟨hheld, nofun, ?_⟩
    change s.itemCount pg < slabPartialThresh
    rw [hcount]
    decide
  · apply iff_of_false hpart
    rintro ⟨_, _, hle⟩
    change (slabPartialThresh : Int) ≤ s.itemCount pg at hle
    rw [hcount] at hle
    exact absurd hle (by decide)

end

theorem ListsInv.reuse {rest : List Nat} (h : ListsInv n s full (pg :: rest))
    (hnone : s.curPg = none) (hlinks : Lists t.links (slabLists full rest))
    (hheld : t.held = s.held) (hcount : t.itemCount = s.itemCount)
    (hcur : t.curPg = some pg) : ListsInv n t full rest := by
  have hpg := (h.part_iff pg).mp List.mem_cons_self
  have hnodup : (pg :: rest).Nodup :=
    pages_nodup h.queues (h := .partialList) rfl
  refine h.takeOff pg hlinks (fun q hne => ?_) (fun _ => hcur)
    (fun hmem => ?_) (List.nodup_cons.mp hnodup).1
  · rw [hheld, hcount, hcur, hnone, List.mem_cons, or_iff_right hne]
    refine ⟨rfl, ?_, rfl, Iff.rfl, Iff.rfl⟩
    exact iff_of_false (fun heq => hne (Option.some.inj heq).symm) nofun
  · have hfew := ((h.full_iff pg).mp hmem).2.2
    omega

theorem ListsInv.fresh (h : ListsInv n s full part) (hnone : s.curPg = none)
    (hpg : s.held pg = false) (hlinks : t.links = s.links)
    (hheld : t.held = update s.held pg true)
    (hcount : t.itemCount = update s.itemCount pg n.nrElems)
    (hcur : t.curPg = some pg) : ListsInv n t full part := by
  obtain ⟨hfull, hpart⟩ := h.held_off hpg
  refine h.takeOff pg (hlinks ▸ h.queues) (fun q hne => ?_) (fun _ => hcur)
    hfull hpart
  rw [hheld, hcount, hcur, hnone, update_of_ne hne, update_of_ne hne]
  refine ⟨rfl, ?_, rfl, Iff.rfl, Iff.rfl⟩
  exact iff_of_false (fun heq => hne (Option.some.inj heq).symm) nofun

end Queues

def SlabInv (n : SlabNode) (s : SlabState) : Prop :=
  ∃ full part free, PagesInv n s free ∧ ListsInv n s full part

section Alloc

variable {fresh : Option Nat}

/-- A page with something to give is the current one, unless memory ran out. -/
structure HasPage (n : SlabNode) (s t : SlabState) (r : Option Nat) : Prop where
  inv : SlabInv n t
  cur : t.curPg = r
  pos : ∀ pg, r = some pg → 0 < t.itemCount pg
  held : ∀ pg, s.held pg = true → t.held pg = true
  live : t.live = s.live
  onPages : t.OnPages n

variable {L : Links SlabLink}

theorem slabNodeRefill_reuse
    (hpop : listPop s.links .partialList = (L, some (.link pg))) :
    slabNodeRefill n s fresh =
      .ok ({ s with links := L, curPg := some pg, nrPages := s.nrPages + 1 },
        some pg) := by
  simp only [slabNodeRefill, slabNodeGetPage, hpop]
  rfl

theorem slabNodeRefill_out
    (hpop : listPop s.links .partialList = (L, none)) :
    slabNodeRefill n s none = .ok ({ s with curPg := none }, none) := by
  simp only [slabNodeRefill, slabNodeGetPage, hpop]
  rfl

theorem slabNodeRefill_new
    (hpop : listPop s.links .partialList = (L, none)) :
    slabNodeRefill n s (some pg) =
      .ok ({ s.setUpPage n pg with
        curPg := some pg, nrPages := s.nrPages + 1 }, some pg) := by
  simp only [slabNodeRefill, slabNodeGetPage, hpop]
  rfl

theorem slabNodeRefill_ok (h : SlabInv n s) (hon : s.OnPages n)
    (hoff : n.offset ≤ n.pgsize) (hmany : slabPartialThresh < n.nrElems)
    (hnone : s.curPg = none) (hfresh : s.pageFree fresh) :
    ∃ t r, slabNodeRefill n s fresh = .ok (t, r) ∧ HasPage n s t r ∧
      (r = none → fresh = none) := by
  obtain ⟨full, part, free, hpages, hlists⟩ := h
  have hold : ∀ pg, s.curPg = some pg → s.carved pg = n.nrElems := by
    intro pg hcur
    rw [hnone] at hcur
    cases hcur
  cases part with
  | cons pg rest =>
    obtain ⟨hheld, hcur, hcount⟩ := (hlists.part_iff pg).mp List.mem_cons_self
    have hhead : slabLists full (pg :: rest) .partialList =
        some (.link pg :: rest.map .link) := rfl
    obtain ⟨hpop, hdel⟩ := listPop_cons hlists.queues hhead
    rw [slabLists_part] at hdel
    refine ⟨_, some pg, slabNodeRefill_reuse hpop,
      ⟨⟨full, rest, free, ?_, ?_⟩, rfl, ?_, fun _ h => h, rfl, hon⟩, nofun⟩
    · refine hpages.setCurrent ⟨rfl, rfl, rfl, rfl, rfl, rfl⟩ rfl hold ?_
      rintro q hq
      cases hq
      exact ⟨hheld, hpages.carved pg hheld hcur⟩
    · exact hlists.reuse hnone hdel rfl rfl rfl
    · rintro q hq
      cases hq
      change 0 < s.itemCount pg
      have hthresh : slabPartialThresh = 4 := rfl
      omega
  | nil =>
    have hpop := listPop_nil hlists.queues (h := .partialList) rfl
    cases fresh with
    | none =>
      refine ⟨_, none, slabNodeRefill_out hpop,
        ⟨⟨full, [], free, ?_, ?_⟩, rfl, nofun, fun _ h => h, rfl, hon⟩,
        fun _ => rfl⟩
      · exact hpages.setCurrent ⟨rfl, rfl, rfl, rfl, rfl, rfl⟩ rfl hold nofun
      · have hsame : { s with curPg := none } = s := by rw [← hnone]
        rw [hsame]
        exact hlists
    | some pg =>
      have hpg := hfresh pg rfl
      refine ⟨_, some pg, slabNodeRefill_new hpop,
        ⟨⟨full, [], update free pg [], ?_, ?_⟩, rfl, ?_, ?_, rfl, ?_⟩, nofun⟩
      · exact hpages.fresh hon hoff hnone hpg ⟨rfl, rfl, rfl, rfl, rfl, rfl⟩
          rfl rfl
      · exact hlists.fresh hnone hpg rfl rfl rfl rfl
      · rintro q hq
        cases hq
        change 0 < update s.itemCount pg n.nrElems pg
        rw [update_self]
        omega
      · intro q hq
        change update s.held pg true q = true
        rcases eq_or_ne q pg with rfl | hne
        · rw [update_self]
        · rw [update_of_ne hne]
          exact hq
      · intro q hq j hj
        change j < update s.carved pg 0 q at hj
        rcases eq_or_ne q pg with rfl | hne
        · rw [update_self] at hj
          cases hj
        · rw [update_of_ne hne] at hj
          exact hon q ((update_of_ne hne ..).symm.trans hq) j hj

theorem slabNodeRefill_cur (c : Option Nat) :
    slabNodeRefill n { s with curPg := c } fresh =
      slabNodeRefill n s fresh := by
  unfold slabNodeRefill slabNodeGetPage
  rcases listPop s.links .partialList with ⟨links, node⟩
  cases node with
  | none =>
    cases fresh with
    | none => rfl
    | some pg => rfl
  | some node =>
    cases node with
    | fullList => rfl
    | partialList => rfl
    | link pg => rfl

theorem slabNodeCurrent_ok (h : SlabInv n s) (hon : s.OnPages n)
    (hoff : n.offset ≤ n.pgsize) (hmany : slabPartialThresh < n.nrElems)
    (hfresh : s.pageFree fresh) :
    ∃ t r, slabNodeCurrent n s fresh = .ok (t, r) ∧ HasPage n s t r ∧
      (r = none → fresh = none) := by
  unfold slabNodeCurrent
  cases hcur : s.curPg with
  | none => exact slabNodeRefill_ok h hon hoff hmany hcur hfresh
  | some pg =>
    obtain ⟨full, part, free, hpages, hlists⟩ := h
    obtain ⟨hheld, -⟩ := hpages.cur pg hcur
    have hok := hpages.page pg hheld
    by_cases hcount : s.itemCount pg = 0
    · simp only [if_pos hcount]
      have hparked : SlabInv n
          { s with
            links := listAdd s.links .fullList (.link pg), curPg := none } := by
        refine ⟨pg :: full, part, free, ?_, hlists.park hcur hheld hcount hmany⟩
        refine hpages.setCurrent ⟨rfl, rfl, rfl, rfl, rfl, rfl⟩ rfl ?_ nofun
        intro q hq
        rw [hcur] at hq
        cases hq
        exact hok.carved_of_empty hcount
      obtain ⟨t, r, hrun, hpage, hnone⟩ :=
        slabNodeRefill_ok hparked hon hoff hmany rfl hfresh
      exact ⟨t, r, (slabNodeRefill_cur (some pg)).trans hrun,
        { hpage with }, hnone⟩
    · simp only [if_neg hcount]
      refine ⟨s, some pg, rfl, ⟨⟨full, part, free, hpages, hlists⟩, hcur, ?_,
        fun _ h => h, rfl, hon⟩, nofun⟩
      rintro q hq
      cases hq
      have hcarved := hok.carved
      have heq := hok.count
      omega

structure Allocated (n : SlabNode) (s t : SlabState) (r : Option Nat) : Prop where
  inv : SlabInv n t
  held : ∀ pg, s.held pg = true → t.held pg = true
  live : t.live = r.toList ++ s.live
  onPages : t.OnPages n

theorem slabNodeAlloc_ok (h : SlabInv n s) (hon : s.OnPages n)
    (hoff : n.offset ≤ n.pgsize) (hmany : slabPartialThresh < n.nrElems)
    (hfresh : s.pageFree fresh) :
    slabNodeAlloc n s fresh = .error .pageEnd ∧ ¬n.Fits ∨
    ∃ t r, slabNodeAlloc n s fresh = .ok (t, r) ∧ Allocated n s t r ∧
      (r = none → fresh = none) := by
  obtain ⟨u, r, hrun, hpage, hnone⟩ :=
    slabNodeCurrent_ok h hon hoff hmany hfresh
  unfold slabNodeAlloc
  rw [hrun]
  cases r with
  | none =>
    exact .inr ⟨u, none, rfl, { hpage with }, fun _ => hnone rfl⟩
  | some pg =>
    obtain ⟨full, part, free, hpages, hlists⟩ := hpage.inv
    change (slabNodeTake n u pg >>= _) = _ ∧ _ ∨
      ∃ t r, (slabNodeTake n u pg >>= _) = _ ∧ _
    rcases slabNodeTake_ok hpages hpage.onPages hpage.cur (hpage.pos pg rfl)
      with ⟨htake, hfit⟩ | ⟨t, item, fl, htake, hpages', htaken, hon'⟩
    · rw [htake]
      exact .inl ⟨rfl, hfit⟩
    rw [htake]
    refine .inr ⟨t, some item, rfl,
      ⟨⟨full, part, _, hpages', ?_⟩, ?_, ?_, hon'⟩, nofun⟩
    · apply hlists.current hpage.cur htaken.links htaken.held htaken.cur
      intro q hne
      rw [htaken.count, update_of_ne hne]
    · intro q hq
      rw [htaken.held]
      exact hpage.held q hq
    · rw [htaken.live, hpage.live]
      rfl

end Alloc

section Free

variable {full part : List Nat} {free : Nat → List Nat} {item : Nat}

theorem put_count (n : SlabNode) (s : SlabState) (item : Nat) :
    (slabNodePut n s item).itemCount (addrToPage n item) =
      s.itemCount (addrToPage n item) + 1 :=
  update_self ..

theorem PageOk.liveOn_nil {fl : List Nat} (h : PageOk n s pg fl)
    (hcount : s.itemCount pg = n.nrElems) : s.liveOn n pg = [] := by
  have hlength := h.length
  have heq := h.count
  have hcarved := h.carved
  rw [← List.length_eq_zero_iff]
  omega

theorem PagesInv.release (h : PagesInv n s free) (hheld : s.held pg = true)
    (hcur : s.curPg ≠ some pg) (hcount : s.itemCount pg = n.nrElems)
    (hst : SamePages s t) (hheld' : t.held = update s.held pg false)
    (hcur' : t.curPg = s.curPg) : PagesInv n t free := by
  have hold : ∀ q, t.held q = true → q ≠ pg ∧ s.held q = true := by
    intro q hq
    rw [hheld'] at hq
    rcases eq_or_ne q pg with rfl | hne
    · rw [update_self] at hq
      cases hq
    · rw [update_of_ne hne] at hq
      exact ⟨hne, hq⟩
  refine ⟨fun q hq => ?_, fun q hq hne => ?_, fun q hq => ?_, fun a ha => ?_⟩
  · exact (h.page q (hold q hq).2).same hst
  · rw [hst.carved]
    exact h.carved q (hold q hq).2 (hcur' ▸ hne)
  · rw [hcur'] at hq
    have hne : q ≠ pg := fun heq => hcur (heq ▸ hq)
    rw [hheld', update_of_ne hne, hst.carved, hst.off]
    exact h.cur q hq
  · rw [hst.live] at ha
    have hne : addrToPage n a ≠ pg := by
      intro heq
      have hmem := mem_liveOn.mpr ⟨ha, heq⟩
      rw [(h.page pg hheld).liveOn_nil hcount] at hmem
      cases hmem
    rw [hheld', update_of_ne hne]
    exact h.live a ha

theorem slabNodeSettle_pages (h : PagesInv n s free)
    (hheld : s.held pg = true) : PagesInv n (slabNodeSettle n s pg) free := by
  unfold slabNodeSettle
  split_ifs with hcur hthresh hall
  · exact h
  · exact ⟨fun q hq => (h.page q hq).same ⟨rfl, rfl, rfl, rfl, rfl, rfl⟩,
      h.carved, h.cur, h.live⟩
  · exact h.release hheld hcur hall ⟨rfl, rfl, rfl, rfl, rfl, rfl⟩ rfl rfl
  · exact h

theorem ListsInv.afterFree (h : ListsInv n s full part)
    (hpages : PagesInv n s free) (hmany : slabPartialThresh < n.nrElems)
    (hitem : item ∈ s.live) :
    ∃ full' part', ListsInv n (slabNodeFree n s item) full' part' := by
  have hheld := hpages.live item hitem
  have hother : ∀ q, q ≠ addrToPage n item →
      (slabNodePut n s item).itemCount q = s.itemCount q := fun q hne =>
    update_of_ne hne ..
  have hfull := h.full_iff (addrToPage n item)
  have hpart := h.part_iff (addrToPage n item)
  have hbound := h.bound (addrToPage n item) hheld
  unfold slabNodeFree slabNodeSettle
  rw [put_count]
  split_ifs with hcur hthresh hall
  · exact ⟨full, part, h.current hcur rfl rfl rfl hother⟩
  · have hmem : addrToPage n item ∈ full := hfull.mpr ⟨hheld, hcur, by omega⟩
    have hnot : addrToPage n item ∉ part := fun hmem' => by
      have hle := (hpart.mp hmem').2.2
      omega
    obtain ⟨full', hdel, hfull'⟩ := del_full h.queues hmem
    have hnot' : addrToPage n item ∉ full' := fun hmem' =>
      ((hfull' _).mp hmem').2 rfl
    refine ⟨full', addrToPage n item :: part, ?_⟩
    apply h.move (addrToPage n item) (add_part hdel hnot' hnot)
    · intro q hne
      rw [hfull' q, and_iff_left hne, List.mem_cons, or_iff_right hne]
      exact ⟨rfl, Iff.rfl, hother q hne, Iff.rfl, Iff.rfl⟩
    · intro _ _
      rw [put_count]
      omega
    · apply iff_of_false hnot'
      rintro ⟨_, _, hlt⟩
      rw [put_count] at hlt
      omega
    · refine iff_of_true List.mem_cons_self ⟨hheld, hcur, ?_⟩
      rw [put_count]
      omega
  · have hmem : addrToPage n item ∈ part := hpart.mpr ⟨hheld, hcur, by omega⟩
    have hnot : addrToPage n item ∉ full := fun hmem' => by
      have hlt := (hfull.mp hmem').2.2
      omega
    obtain ⟨part', hdel, hpart'⟩ := del_part h.queues hmem
    refine ⟨full, part', h.takeOff (addrToPage n item) hdel (fun q hne => ?_)
      (fun hgone => ?_) hnot fun hmem' => ((hpart' _).mp hmem').2 rfl⟩
    · rw [hpart' q, and_iff_left hne]
      exact ⟨update_of_ne hne .., Iff.rfl, hother q hne, Iff.rfl, Iff.rfl⟩
    · exact Bool.noConfusion ((update_self ..).symm.trans hgone)
  · have hlt := hbound hcur
    refine ⟨full, part, ?_⟩
    have hqueues : Lists (slabNodePut n s item).links _ := h.queues
    apply h.move (addrToPage n item) hqueues
    · exact fun q hne => ⟨rfl, Iff.rfl, hother q hne, Iff.rfl, Iff.rfl⟩
    · intro _ _
      rw [put_count]
      omega
    · rw [hfull, put_count]
      apply and_congr_right'
      apply and_congr_right'
      omega
    · rw [hpart, put_count]
      apply and_congr_right'
      apply and_congr_right'
      omega

theorem slabNodeFree_ok (h : SlabInv n s) (hon : s.OnPages n)
    (hmany : slabPartialThresh < n.nrElems) (hitem : item ∈ s.live) :
    SlabInv n (slabNodeFree n s item) := by
  obtain ⟨full, part, free, hpages, hlists⟩ := h
  obtain ⟨full', part', hlists'⟩ := hlists.afterFree hpages hmany hitem
  have hheld := hpages.live item hitem
  exact ⟨full', part', _,
    slabNodeSettle_pages (hpages.put hon hitem) hheld, hlists'⟩

/-- A page is given back when its last item is freed and it is not the current
one. -/
theorem slabNodeFree_held (hmany : slabPartialThresh < n.nrElems) (q : Nat) :
    (slabNodeFree n s item).held q = true ↔ s.held q = true ∧
      ¬ (q = addrToPage n item ∧ s.curPg ≠ some q ∧
        s.itemCount q + 1 = n.nrElems) := by
  unfold slabNodeFree slabNodeSettle
  rw [put_count]
  split_ifs with hcur hthresh hall
  · refine (and_iff_left ?_).symm
    rintro ⟨rfl, hne, _⟩
    exact hne hcur
  · refine (and_iff_left ?_).symm
    rintro ⟨rfl, _, hall⟩
    omega
  · change update s.held _ false q = true ↔ _
    rcases eq_or_ne q (addrToPage n item) with rfl | hne
    · rw [update_self]
      exact iff_of_false nofun fun h => h.2 ⟨rfl, hcur, hall⟩
    · rw [update_of_ne hne]
      exact (and_iff_left fun h => hne h.1).symm
  · refine (and_iff_left ?_).symm
    rintro ⟨rfl, _, hall'⟩
    exact hall hall'

theorem slabNodeFree_carved : (slabNodeFree n s item).carved = s.carved := by
  unfold slabNodeFree slabNodeSettle
  split_ifs <;> rfl

end Free

section Run

variable {free : Nat → List Nat}

theorem PagesInv.live_place {item : Nat} (h : PagesInv n s free)
    (hitem : item ∈ s.live) :
    ∃ j < n.nrElems, itemAddr n (addrToPage n item) j = item := by
  have hok := h.page _ (h.live item hitem)
  obtain ⟨j, hj, hplace⟩ := hok.mem
    (List.mem_append_right _ (mem_liveOn.mpr ⟨hitem, rfl⟩))
  exact ⟨j, Nat.lt_of_lt_of_le hj hok.carved, hplace⟩

theorem PagesInv.cur_of_overruns (h : PagesInv n s free) (hon : s.OnPages n)
    (hmany : slabPartialThresh < n.nrElems) (hover : n.Overruns)
    (hpg : s.held pg = true) : s.curPg = some pg := by
  by_contra hcur
  have hlast := hon pg hpg (n.nrElems - 1)
  rw [h.carved pg hpg hcur] at hlast
  exact absurd (hlast (by omega)) (Nat.not_lt_of_le hover.2)

theorem PagesInv.free_apart {item a : Nat} (h : PagesInv n s free)
    (hon : s.OnPages n) (hmany : slabPartialThresh < n.nrElems)
    (hnode : n.Fits ∨ n.Overruns) (hpg : s.held pg = true) (ha : a ∈ free pg)
    (hitem : item ∈ s.live) : a + n.size ≤ item ∨ item + n.size ≤ a := by
  have hok := h.page pg hpg
  have hheld := h.live item hitem
  have hpage : addrToPage n a = pg := hok.mem_page hon hpg ha
  obtain ⟨j, hj, hplace⟩ := hok.mem (List.mem_append_left _ ha)
  obtain ⟨k, hk, hplace'⟩ := h.live_place hitem
  rw [← hplace, ← hplace']
  apply itemAddr_apart
  · rcases hnode with hfit | hover
    · exact .inr ⟨hfit, Nat.lt_of_lt_of_le hj hok.carved, hk⟩
    · have hcur := h.cur_of_overruns hon hmany hover hpg
      have hcur' := h.cur_of_overruns hon hmany hover hheld
      exact .inl (Option.some.inj (hcur.symm.trans hcur'))
  · rw [hplace, hplace']
    rintro rfl
    have hdisj := (List.nodup_append.mp hok.nodup).2.2
    exact hdisj a ha a (mem_liveOn.mpr ⟨hitem, hpage⟩) rfl

theorem SlabInv.write {a : Nat} {v : Option Nat} (h : SlabInv n s)
    (hon : s.OnPages n) (hmany : slabPartialThresh < n.nrElems)
    (hnode : n.Fits ∨ n.Overruns)
    (ha : s.inLive n a ∨ s.held (addrToPage n a) = false) :
    SlabInv n { s with hdr := update s.hdr a v } := by
  obtain ⟨full, part, free, hpages, hlists⟩ := h
  refine ⟨full, part, free, ⟨fun pg hpg => ?_, hpages.carved, hpages.cur,
    hpages.live⟩, { hlists with }⟩
  have hok := hpages.page pg hpg
  refine hok.congr ?_ rfl rfl rfl rfl
  intro b hb
  apply update_of_ne
  rintro rfl
  rcases ha with ⟨item, hitem, hlow, hhigh⟩ | hfree
  · have hsize := n.size_pos
    have hapart := hpages.free_apart hon hmany hnode hpg hb hitem
    omega
  · rw [hok.mem_page hon hpg hb, hpg] at hfree
    cases hfree

theorem SlabInv.foreign {next : Option Nat} {count : Int}
    {linkNext linkPrev : SlabLink} (h : SlabInv n s)
    (hpg : s.held pg = false) :
    SlabInv n
      { s with
        next := update s.next pg next
        itemCount := update s.itemCount pg count
        links := storePrev (storeNext s.links (.link pg) linkNext)
          (.link pg) linkPrev } := by
  obtain ⟨full, part, free, hpages, hlists⟩ := h
  have hne : ∀ q, s.held q = true → q ≠ pg := by
    rintro q hq rfl
    rw [hpg] at hq
    cases hq
  obtain ⟨hfull, hpart⟩ := hlists.held_off hpg
  refine ⟨full, part, free, ⟨fun q hq => ?_, hpages.carved, hpages.cur,
    hpages.live⟩, ?_⟩
  · refine (hpages.page q hq).congr (fun _ _ => rfl) ?_ rfl rfl ?_
    · exact update_of_ne (hne q hq) ..
    · exact update_of_ne (hne q hq) ..
  · refine hlists.takeOff pg
      (scribble_lists hlists.queues (link_unlisted hfull hpart) _ _)
      (fun q hne => ?_) (fun hheld => absurd rfl (hne pg hheld)) hfull hpart
    exact ⟨rfl, Iff.rfl, update_of_ne hne .., Iff.rfl, Iff.rfl⟩

theorem SlabInv.start (h : slabStart s) : SlabInv n s := by
  obtain ⟨hcur, _, _, ⟨L, hlinks⟩, hheld, hlive⟩ := h
  have hnone : ∀ pg, s.held pg ≠ true := fun pg => by
    rw [hheld]
    exact nofun
  refine ⟨[], [], fun _ => [], ⟨fun pg hpg => absurd hpg (hnone pg),
    fun pg hpg => absurd hpg (hnone pg), fun pg hpg => ?_, fun a ha => ?_⟩,
    ⟨?_, fun pg hpg => absurd hpg (hnone pg), fun pg => ?_, fun pg => ?_⟩⟩
  · rw [hcur] at hpg
    cases hpg
  · rw [hlive] at ha
    cases ha
  · have hinit := listHeadInit_lists
      (listHeadInit_lists (.empty L) (.empty SlabLink.fullList))
      (h := .partialList) ?_
    · rw [hlinks]
      convert hinit using 1
      funext h
      cases h <;> rfl
    · intro h xs hxs
      cases h with
      | fullList =>
        cases hxs
        simp
      | partialList => cases hxs
      | link pg => cases hxs
  · exact iff_of_false List.not_mem_nil fun h => hnone pg h.1
  · exact iff_of_false List.not_mem_nil fun h => hnone pg h.1

theorem SlabInv.next {a : SlabAct} (h : SlabInv n s) (hon : s.OnPages n)
    (hmany : slabPartialThresh < n.nrElems) (hnode : n.Fits ∨ n.Overruns)
    (hnext : slabNext n s a = some t) : SlabInv n t ∧ t.OnPages n := by
  cases a with
  | alloc fresh =>
    simp only [slabNext] at hnext
    split_ifs at hnext with hfresh
    rcases slabNodeAlloc_ok h hon (SlabNode.offset_le hnode) hmany hfresh with
      ⟨hrun, -⟩ | ⟨u, r, hrun, halloc, -⟩
    · rw [hrun] at hnext
      cases hnext
    · rw [hrun] at hnext
      cases hnext
      exact ⟨halloc.inv, halloc.onPages⟩
  | free item =>
    obtain ⟨hitem, rfl⟩ := guarded hnext
    refine ⟨slabNodeFree_ok h hon hmany hitem, fun pg hpg => ?_⟩
    rw [slabNodeFree_carved]
    exact hon pg ((slabNodeFree_held hmany pg).mp hpg).1
  | write a v =>
    obtain ⟨ha, rfl⟩ := guarded hnext
    exact ⟨h.write hon hmany hnode ha, hon⟩
  | foreign pg next count linkNext linkPrev =>
    obtain ⟨hpg, rfl⟩ := guarded hnext
    exact ⟨h.foreign hpg, hon⟩

/-- The items, pages and lists of a node in one state, and what its next
operation does. -/
structure SlabSound (n : SlabNode) (s : SlabState) : Prop where
  /-- An allocated item was handed out once and is not freed. -/
  once : s.live.Nodup
  apart : ∀ a ∈ s.live, ∀ b ∈ s.live, a ≠ b →
    a + n.size ≤ b ∨ b + n.size ≤ a
  onPage : ∀ a ∈ s.live, s.held (addrToPage n a) = true ∧
    pageToAddr n (addrToPage n a) ≤ a ∧
    a + n.size ≤ pageToAddr n (addrToPage n a) + n.pgsize
  count : ∀ pg, s.held pg = true →
    s.itemCount pg + (s.liveOn n pg).length = n.nrElems
  other : ∀ pg, s.held pg = true → s.curPg ≠ some pg →
    s.carved pg = n.nrElems ∧ ∃ fl, Chain s.hdr (s.next pg) fl ∧
      fl.length = s.itemCount pg ∧ ∀ a ∈ fl, a ∉ s.live
  cur : ∀ pg, s.curPg = some pg → s.held pg = true ∧
    ∃ fl, Chain s.hdr (s.next pg) fl ∧
      fl.length + (n.nrElems - s.carved pg : Int) = s.itemCount pg ∧
      ∀ a ∈ fl, a ∉ s.live
  lists : ∃ full part, Lists s.links (slabLists full part) ∧
    (∀ pg, pg ∈ full ↔ s.held pg = true ∧ s.curPg ≠ some pg ∧
      s.itemCount pg < slabPartialThresh) ∧
    ∀ pg, pg ∈ part ↔ s.held pg = true ∧ s.curPg ≠ some pg ∧
      (slabPartialThresh : Int) ≤ s.itemCount pg ∧
      s.itemCount pg < n.nrElems
  /-- Freeing gives back the page of the item, if it is not the current one and
  all its items are free now, and no other. -/
  released : ∀ item ∈ s.live, ∀ pg, s.held pg = true →
    ((slabNodeFree n s item).held pg = false ↔
      pg = addrToPage n item ∧ s.curPg ≠ some pg ∧
        s.itemCount pg + 1 = n.nrElems)
  /-- Allocating gives back no page and does not carve at the end of one. -/
  alloc : ∀ fresh, s.pageFree fresh →
    ∃ t r, slabNodeAlloc n s fresh = .ok (t, r) ∧
      t.live = r.toList ++ s.live ∧ (r = none → fresh = none) ∧
      ∀ pg, s.held pg = true → t.held pg = true

theorem PagesInv.live_nodup (h : PagesInv n s free) : s.live.Nodup := by
  rw [List.nodup_iff_count_le_one]
  intro a
  by_cases ha : a ∈ s.live
  · have hok := h.page _ (h.live a ha)
    have hnodup := (List.nodup_append.mp hok.nodup).2.1
    have hcount := List.nodup_iff_count_le_one.mp hnodup a
    rwa [SlabState.liveOn, List.count_filter (by simp)] at hcount
  · rw [List.count_eq_zero_of_not_mem ha]
    exact Nat.zero_le 1

theorem slabInv_reach (hmany : slabPartialThresh < n.nrElems)
    (hnode : n.Fits ∨ n.Overruns) (hs : (slabSystem n).Reach anyStep s) :
    SlabInv n s ∧ s.OnPages n := by
  apply hs.invariant
  · intro s hinit
    refine ⟨SlabInv.start hinit, fun pg hpg => ?_⟩
    rw [hinit.2.2.2.2.1 pg] at hpg
    cases hpg
  · rintro s a t ⟨hinv, hon⟩ _ hnext
    exact hinv.next hon hmany hnode hnext

theorem PagesInv.on_page (h : PagesInv n s free) (hfit : n.Fits) {a : Nat}
    (ha : a ∈ s.live) : s.held (addrToPage n a) = true ∧
      pageToAddr n (addrToPage n a) ≤ a ∧
      a + n.size ≤ pageToAddr n (addrToPage n a) + n.pgsize := by
  obtain ⟨j, hj, hplace⟩ := h.live_place ha
  have hend := item_end hfit hj
  unfold itemAddr at hplace
  refine ⟨h.live a ha, ?_, ?_⟩
  · omega
  · omega

/-- Every run of allocations and frees, with page allocations that succeed or
fail and with stores of others to what they have, keeps the representation. -/
theorem slab_sound (hmany : slabPartialThresh < n.nrElems)
    (hfit : n.nrElems * n.size + n.offset ≤ n.pgsize)
    (hs : (slabSystem n).Reach anyStep s) : SlabSound n s := by
  have hnode : n.Fits ∨ n.Overruns := .inl hfit
  obtain ⟨hinv, hon⟩ := slabInv_reach hmany hnode hs
  obtain ⟨full, part, free, hpages, hlists⟩ := id hinv
  have hfree : ∀ pg, s.held pg = true → ∀ a ∈ free pg, a ∉ s.live := by
    intro pg hpg a ha hlive
    have hsize := n.size_pos
    have hapart := hpages.free_apart hon hmany hnode hpg ha hlive
    omega
  refine ⟨hpages.live_nodup, fun a ha b hb hne => ?_,
    fun a ha => hpages.on_page hfit ha, fun pg hpg => ?_,
    fun pg hpg hne => ?_, fun pg hpg => ?_,
    ⟨full, part, hlists.queues, hlists.full_iff, fun pg => ?_⟩,
    fun item hitem pg hpg => ?_, fun fresh hfresh => ?_⟩
  · obtain ⟨j, hj, hplace⟩ := hpages.live_place ha
    obtain ⟨k, hk, hplace'⟩ := hpages.live_place hb
    rw [← hplace, ← hplace'] at hne ⊢
    exact itemAddr_apart (.inr ⟨hfit, hj, hk⟩) hne
  · have hok := hpages.page pg hpg
    have hlength := hok.length
    rw [hok.count]
    omega
  · have hok := hpages.page pg hpg
    have hcarved := hpages.carved pg hpg hne
    refine ⟨hcarved, free pg, hok.chain, ?_, hfree pg hpg⟩
    rw [hok.count, hcarved]
    omega
  · have hheld := (hpages.cur pg hpg).1
    have hok := hpages.page pg hheld
    exact ⟨hheld, free pg, hok.chain, hok.count.symm, hfree pg hheld⟩
  · rw [hlists.part_iff]
    constructor
    · rintro ⟨hheld, hne, hle⟩
      exact ⟨hheld, hne, hle, hlists.bound pg hheld hne⟩
    · rintro ⟨hheld, hne, hle, _⟩
      exact ⟨hheld, hne, hle⟩
  · rw [← Bool.not_eq_true, slabNodeFree_held hmany, not_and_not_right]
    exact ⟨fun h => h hpg, fun h _ => h⟩
  · obtain ⟨t, r, hrun, halloc, hnone⟩ :=
      (slabNodeAlloc_ok hinv hon (SlabNode.offset_le hnode) hmany
        hfresh).resolve_left fun h => h.2 hfit
    exact ⟨t, r, hrun, halloc.live, hnone, halloc.held⟩

end Run

def eightItems : SlabNode where
  size := 512
  offset := 0
  lgpage := false
  pages := false
  nrElems := 8
  size_pos := by decide
  size_word := by decide
  offset_word := by decide

def emptySlab : SlabState where
  pgOff := 0
  curPg := none
  nrPages := 0
  links := listHeadInit (listHeadInit ⟨id, id⟩ .fullList) .partialList
  next _ := some 0
  itemCount _ := 0
  hdr _ := some 0
  held _ := false
  carved _ := 0
  live := []

/-- One page is used up, another is started, and half of the items of the first
are freed, one of the others being written to in between. -/
def slabRun : List SlabAct :=
  .alloc (some 1) :: List.replicate 7 (.alloc none) ++
    [.alloc (some 2), .free (itemAddr eightItems 1 0),
      .free (itemAddr eightItems 1 1), .write (itemAddr eightItems 1 2) none,
      .free (itemAddr eightItems 1 3), .free (itemAddr eightItems 1 4)]

theorem slabRun_isSome :
    ((slabSystem eightItems).exec emptySlab slabRun).isSome = true := by
  with_unfolding_all decide

/-- The first page is then a partial page with four free items. -/
theorem slab_sound_partial :
    let s := ((slabSystem eightItems).exec emptySlab slabRun).get slabRun_isSome
    s.itemCount 1 = 4 ∧ s.live.length = 5 ∧ SlabSound eightItems s := by
  have hinit : (slabSystem eightItems).init emptySlab :=
    ⟨rfl, rfl, rfl, ⟨_, rfl⟩, fun _ => rfl, rfl⟩
  have hreach := System.Reach.exec (.init hinit) slabRun
    (Option.some_get slabRun_isSome).symm
  refine ⟨?_, ?_, slab_sound (by decide) (by decide) hreach⟩
  · with_unfolding_all decide
  · with_unfolding_all decide

end Libut.Base
