import Libut.Base.Page
import Libut.Machine.System

/-!
The allocator of large pages (`base/page.c`). A node takes the struct of a page
from its list of freed ones, or else the next one of its table, and gives up
the lock before it maps the page, which may fail. Whether mapping and lookup of
the physical address succeed is part of a label. For the statements the model
keeps which pages of a node are in use.

`lgpage_alloc_on_node` does not put the struct back if it cannot create the
page: the struct is then lost for the rest of the run.
-/

namespace Libut.Base

open Function Machine

def pageFlagLarge : BitVec 32 := 0x01

def pageFlagInUse : BitVec 32 := 0x02

structure LgPage where
  flags : BitVec 32
  ref : BitVec 32
  paddr : BitVec 64
  deriving DecidableEq, Repr

structure LgpageNode where
  idx : Nat
  pages : List (BitVec 64)
  deriving DecidableEq, Repr

structure LgpageState where
  nodes : Nat → LgpageNode
  page : BitVec 64 → LgPage
  inUse : Nat → List (BitVec 64)

inductive LgpageMapping
  | mapped (paddr : BitVec 64)
  /-- `mem_map_anom` fails. -/
  | noMapping
  /-- `mem_lookup_page_phys_addr` fails, and the page is unmapped again. -/
  | noPaddr
  deriving DecidableEq, Repr

namespace LgpageState

def setNode (s : LgpageState) (node : Nat) (n : LgpageNode) : LgpageState :=
  { s with nodes := update s.nodes node n }

def setPage (s : LgpageState) (pg : BitVec 64) (p : LgPage) : LgpageState :=
  { s with page := update s.page pg p }

def setInUse (s : LgpageState) (node : Nat) (pgs : List (BitVec 64)) :
    LgpageState :=
  { s with inUse := update s.inUse node pgs }

variable (s : LgpageState) {node node' : Nat} (n : LgpageNode)
  {pg pg' : BitVec 64} (p : LgPage) {pgs : List (BitVec 64)}

theorem setNode_nodes : (s.setNode node n).nodes node = n :=
  update_self ..

theorem setNode_nodes_of_ne (hne : node' ≠ node) :
    (s.setNode node n).nodes node' = s.nodes node' :=
  update_of_ne hne ..

theorem setNode_page : (s.setNode node n).page = s.page := rfl

theorem setInUse_page : (s.setInUse node pgs).page = s.page := rfl

theorem setPage_page : (s.setPage pg p).page pg = p :=
  update_self ..

theorem setPage_page_of_ne (hne : pg' ≠ pg) :
    (s.setPage pg p).page pg' = s.page pg' :=
  update_of_ne hne ..

end LgpageState

/-- `lgpage_create`; `false` stands for the error codes. -/
def lgpageCreate (s : LgpageState) (pg : BitVec 64) :
    LgpageMapping → LgpageState × Bool
  | .mapped paddr =>
    (s.setPage pg ⟨pageFlagLarge ||| pageFlagInUse, 1, paddr⟩, true)
  | .noMapping => (s, false)
  | .noPaddr => (s, false)

def lgpageDestroy (s : LgpageState) (pg : BitVec 64) : LgpageState :=
  s.setPage pg { s.page pg with flags := 0, paddr := 0 }

/-- The part of `lgpage_alloc_on_node` under the lock: a struct for the page. -/
def lgpageTake (pageTbl : BitVec 64) (s : LgpageState) (node : Nat) :
    Option (LgpageState × BitVec 64) :=
  match (s.nodes node).pages with
  | pg :: rest => some (s.setNode node { s.nodes node with pages := rest }, pg)
  | [] =>
    if lgpageMetaEnts ≤ (s.nodes node).idx then none
    else
      some (s.setNode node ⟨(s.nodes node).idx + 1, []⟩,
        lgpageNodePage pageTbl node (s.nodes node).idx)

/-- The part after the lock; there is no result if the assertion fails. -/
def lgpageFinish (s : LgpageState) (node : Nat) (pg : BitVec 64)
    (mapping : LgpageMapping) : Option (LgpageState × Option (BitVec 64)) :=
  if (s.page pg).flags &&& pageFlagInUse ≠ 0 then none
  else
    match lgpageCreate s pg mapping with
    | (s, false) => some (s, none)
    | (s, true) =>
      some (s.setInUse node (pg :: s.inUse node), some pg)

def lgpageAllocOnNode (pageTbl : BitVec 64) (s : LgpageState) (node : Nat)
    (mapping : LgpageMapping) : Option (LgpageState × Option (BitVec 64)) :=
  match lgpageTake pageTbl s node with
  | none => some (s, none)
  | some (s, pg) => lgpageFinish s node pg mapping

def lgpageFree (pageTbl : BitVec 64) (s : LgpageState) (pg : BitVec 64) :
    Option LgpageState :=
  let node := (addrToNumaNode (lgpageToAddr pageTbl pg)).toNat
  if node < nnuma then
    let s := lgpageDestroy s pg
    let s := s.setNode node
      { s.nodes node with pages := pg :: (s.nodes node).pages }
    some (s.setInUse node ((s.inUse node).erase pg))
  else none

inductive LgpageAct
  | alloc (node : Nat) (mapping : LgpageMapping)
  | free (node : Nat) (pg : BitVec 64)

def lgpageNext (pageTbl : BitVec 64) (s : LgpageState) :
    LgpageAct → Option LgpageState
  | .alloc node mapping =>
    if node < nnuma then
      (lgpageAllocOnNode pageTbl s node mapping).map Prod.fst
    else none
  | .free node pg =>
    if node < nnuma ∧ pg ∈ s.inUse node then lgpageFree pageTbl s pg else none

/-- All calls after `page_init`, which maps cleared memory for the table. -/
def lgpageSystem (pageTbl : BitVec 64) : System LgpageState LgpageAct where
  init s := (∀ node, s.nodes node = ⟨0, []⟩) ∧ (∀ pg, s.page pg = ⟨0, 0, 0⟩) ∧
    ∀ node, s.inUse node = []
  next := lgpageNext pageTbl

/-- Every struct that the node has taken off its table is in use or on its
list, and not both. -/
def PagesKept (pageTbl : BitVec 64) (s : LgpageState) (node : Nat) : Prop :=
  ∀ k < (s.nodes node).idx,
    Xor (lgpageNodePage pageTbl node k ∈ s.inUse node)
      (lgpageNodePage pageTbl node k ∈ (s.nodes node).pages)

/-- The structs that a later allocation can take: those on the list and the
rest of the table. -/
def Available (pageTbl : BitVec 64) (s : LgpageState) (node : Nat)
    (pg : BitVec 64) : Prop :=
  pg ∈ (s.nodes node).pages ∨
    ∃ k, (s.nodes node).idx ≤ k ∧ k < lgpageMetaEnts ∧
      pg = lgpageNodePage pageTbl node k

/-- After a call every struct is accounted for, and an allocation that failed
has left all of them available. -/
def LgpageLaw (pageTbl : BitVec 64) (s t : LgpageState) (a : LgpageAct) :
    Prop :=
  (∀ node < nnuma, PagesKept pageTbl t node) ∧
    match a with
    | .alloc node mapping =>
      lgpageAllocOnNode pageTbl s node mapping = some (t, none) →
        ∀ node pg, Available pageTbl t node pg ↔ Available pageTbl s node pg
    | .free _ _ => True

def createsPage (s : LgpageState) : LgpageAct → Prop
  | .alloc node mapping =>
    (∃ paddr, mapping = .mapped paddr) ∨
      (s.nodes node).pages = [] ∧ lgpageMetaEnts ≤ (s.nodes node).idx
  | .free _ _ => True

section Structs

variable {pageTbl : BitVec 64} {node node' k k' : Nat}

theorem lgpageNodePage_inj (hnode : node < nnuma) (hk : k < lgpageMetaEnts)
    (hnode' : node' < nnuma) (hk' : k' < lgpageMetaEnts)
    (h : lgpageNodePage pageTbl node k = lgpageNodePage pageTbl node' k') :
    node = node' ∧ k = k' := by
  have hlt := lgpage_number hnode hk
  have hlt' := lgpage_number hnode' hk'
  have hents : nnuma * lgpageMetaEnts = 131072 := by decide
  have hnat : ∀ m, m < nnuma * lgpageMetaEnts →
      (BitVec.ofNat 64 m).toNat = m := by
    intro m hm
    rw [BitVec.toNat_ofNat]
    exact Nat.mod_eq_of_lt (by omega)
  rw [lgpageNodePage_eq, lgpageNodePage_eq] at h
  have hsub := congrArg (pagePtrSub · pageTbl) h
  change pagePtrSub _ _ = pagePtrSub _ _ at hsub
  rw [pagePtrSub_add _ (by rw [hnat _ hlt]; omega),
    pagePtrSub_add _ (by rw [hnat _ hlt']; omega)] at hsub
  have hnum := congrArg BitVec.toNat hsub
  rw [hnat _ hlt, hnat _ hlt'] at hnum
  have hsize : lgpageMetaEnts = 32768 := by decide
  rw [hsize] at hk hk' hnum
  omega

def takenPages (pageTbl : BitVec 64) (s : LgpageState) (node : Nat) :
    List (BitVec 64) :=
  (List.range (s.nodes node).idx).map (lgpageNodePage pageTbl node)

theorem mem_takenPages {s : LgpageState} {pg : BitVec 64} :
    pg ∈ takenPages pageTbl s node ↔
      ∃ k < (s.nodes node).idx, lgpageNodePage pageTbl node k = pg := by
  simp [takenPages]

theorem takenPages_nodup {s : LgpageState} (hnode : node < nnuma)
    (hidx : (s.nodes node).idx ≤ lgpageMetaEnts) :
    (takenPages pageTbl s node).Nodup := by
  apply List.Nodup.map_on _ List.nodup_range
  intro k hk k' hk' heq
  rw [List.mem_range] at hk hk'
  exact (lgpageNodePage_inj hnode (by omega) hnode (by omega) heq).2

end Structs

/-- Every struct off the table is in use or on the list, once. Structs that
are not in use do not have the flag. -/
structure LgpageInv (pageTbl : BitVec 64) (s : LgpageState) : Prop where
  taken : ∀ node < nnuma, (s.inUse node ++ (s.nodes node).pages).Perm
    (takenPages pageTbl s node)
  bound : ∀ node < nnuma, (s.nodes node).idx ≤ lgpageMetaEnts
  flagged : ∀ node < nnuma, ∀ k < lgpageMetaEnts,
    (s.page (lgpageNodePage pageTbl node k)).flags &&& pageFlagInUse ≠ 0 →
      lgpageNodePage pageTbl node k ∈ s.inUse node

structure Took (pageTbl : BitVec 64) (s t : LgpageState) (node k : Nat) :
    Prop where
  below : k < (t.nodes node).idx
  bound : (t.nodes node).idx ≤ lgpageMetaEnts
  taken : (lgpageNodePage pageTbl node k ::
    (s.inUse node ++ (t.nodes node).pages)).Perm (takenPages pageTbl t node)
  inUse : t.inUse = s.inUse
  page : t.page = s.page
  others : ∀ node', node' ≠ node → t.nodes node' = s.nodes node'

section Steps

variable {pageTbl pg : BitVec 64} {s t : LgpageState} {node k : Nat}
  {mapping : LgpageMapping}

theorem LgpageInv.nodup (h : LgpageInv pageTbl s) (hnode : node < nnuma) :
    (s.inUse node ++ (s.nodes node).pages).Nodup :=
  (h.taken node hnode).nodup_iff.mpr (takenPages_nodup hnode (h.bound node hnode))

theorem LgpageInv.kept (h : LgpageInv pageTbl s) (hnode : node < nnuma) :
    PagesKept pageTbl s node := by
  intro k hk
  have hmem : lgpageNodePage pageTbl node k ∈
      s.inUse node ++ (s.nodes node).pages :=
    (h.taken node hnode).mem_iff.mpr (mem_takenPages.mpr ⟨k, hk, rfl⟩)
  have hdisj := List.disjoint_of_nodup_append (h.nodup hnode)
  rcases List.mem_append.mp hmem with hin | hin
  · exact .inl ⟨hin, fun hlist => hdisj hin hlist⟩
  · exact .inr ⟨hin, fun huse => hdisj huse hin⟩

theorem takenPages_setNode {n : LgpageNode} :
    takenPages pageTbl (s.setNode node n) node =
      (List.range n.idx).map (lgpageNodePage pageTbl node) := by
  rw [takenPages, LgpageState.setNode_nodes]

theorem LgpageInv.take (h : LgpageInv pageTbl s) (hnode : node < nnuma)
    (htake : lgpageTake pageTbl s node = some (t, pg)) :
    ∃ k, pg = lgpageNodePage pageTbl node k ∧ Took pageTbl s t node k := by
  have hperm := h.taken node hnode
  have hbound := h.bound node hnode
  unfold lgpageTake at htake
  split at htake
  · rename_i pg' rest hpages
    cases htake
    rw [hpages] at hperm
    obtain ⟨k, hk, rfl⟩ := mem_takenPages.mp (hperm.mem_iff.mp
      (List.mem_append_right _ List.mem_cons_self))
    refine ⟨k, rfl, ?_⟩
    constructor
    case below => rwa [LgpageState.setNode_nodes]
    case bound => rwa [LgpageState.setNode_nodes]
    case taken =>
      rw [takenPages_setNode, LgpageState.setNode_nodes]
      exact List.perm_middle.symm.trans hperm
    case inUse => rfl
    case page => rfl
    case others => exact fun _ hne => s.setNode_nodes_of_ne _ hne
  · rename_i hpages
    split_ifs at htake with hfull
    cases htake
    refine ⟨(s.nodes node).idx, rfl, ?_⟩
    rw [hpages, List.append_nil] at hperm
    constructor
    case below =>
      rw [LgpageState.setNode_nodes]
      exact Nat.lt_succ_self _
    case bound =>
      rw [LgpageState.setNode_nodes]
      exact Nat.lt_of_not_le hfull
    case taken =>
      rw [takenPages_setNode, LgpageState.setNode_nodes, List.append_nil,
        List.range_succ, List.map_append]
      exact (hperm.cons _).trans (List.perm_append_singleton _ _).symm
    case inUse => rfl
    case page => rfl
    case others => exact fun _ hne => s.setNode_nodes_of_ne _ hne

section

variable (h : Took pageTbl s t node k)
include h

theorem Took.absent (hnode : node < nnuma) :
    lgpageNodePage pageTbl node k ∉ s.inUse node ∧
      lgpageNodePage pageTbl node k ∉ (t.nodes node).pages := by
  have hnodup := h.taken.nodup_iff.mpr (takenPages_nodup hnode h.bound)
  have hnot := (List.nodup_cons.mp hnodup).1
  rw [List.mem_append, not_or] at hnot
  exact hnot

theorem Took.unflagged (hinv : LgpageInv pageTbl s) (hnode : node < nnuma) :
    (t.page (lgpageNodePage pageTbl node k)).flags &&& pageFlagInUse = 0 := by
  by_contra hflag
  rw [h.page] at hflag
  have hk : k < lgpageMetaEnts := h.below.trans_le h.bound
  exact (h.absent hnode).1 (hinv.flagged node hnode k hk hflag)

theorem Took.create (hinv : LgpageInv pageTbl s) (hnode : node < nnuma)
    (p : LgPage) :
    LgpageInv pageTbl ((t.setPage (lgpageNodePage pageTbl node k) p).setInUse
      node (lgpageNodePage pageTbl node k :: t.inUse node)) := by
  constructor
  case taken =>
    intro node' hnode'
    rcases eq_or_ne node' node with rfl | hne
    · change (update t.inUse node' _ node' ++ _).Perm _
      rw [update_self, h.inUse]
      exact h.taken
    · change (update t.inUse node _ node' ++ (t.nodes node').pages).Perm
        ((List.range (t.nodes node').idx).map _)
      rw [update_of_ne hne, h.inUse, h.others node' hne]
      exact hinv.taken node' hnode'
  case bound =>
    intro node' hnode'
    change (t.nodes node').idx ≤ _
    rcases eq_or_ne node' node with rfl | hne
    · exact h.bound
    · rw [h.others node' hne]
      exact hinv.bound node' hnode'
  case flagged =>
    intro node' hnode' k' hk' hflag
    change lgpageNodePage pageTbl node' k' ∈ update t.inUse node _ node'
    by_cases hpg : lgpageNodePage pageTbl node' k' = lgpageNodePage pageTbl node k
    · have hk : k < lgpageMetaEnts := h.below.trans_le h.bound
      obtain ⟨rfl, rfl⟩ := lgpageNodePage_inj hnode' hk' hnode hk hpg
      rw [update_self]
      exact List.mem_cons_self
    · rw [LgpageState.setInUse_page, LgpageState.setPage_page_of_ne _ _ hpg,
        h.page] at hflag
      have hold := hinv.flagged node' hnode' k' hk' hflag
      rcases eq_or_ne node' node with rfl | hne
      · rw [update_self, h.inUse]
        exact List.mem_cons_of_mem _ hold
      · rwa [update_of_ne hne, h.inUse]

theorem Took.lost (hnode : node < nnuma) : ¬ PagesKept pageTbl t node := by
  intro hkept
  have habsent := h.absent hnode
  rcases hkept k h.below with hin | hin
  · rw [h.inUse] at hin
    exact habsent.1 hin.1
  · exact habsent.2 hin.1

end

theorem addrToNumaNode_lgpage (hnode : node < nnuma) (hk : k < lgpageMetaEnts) :
    (addrToNumaNode (lgpageToAddr pageTbl
      (lgpageNodePage pageTbl node k))).toNat = node := by
  have hmap := addrToNumaNode_addr (lgpage_number hnode hk)
    (show 0 < pgsize2MB by decide)
  rw [BitVec.add_zero, lgpage_number_node hk] at hmap
  rw [lgpageToAddr_node _ hnode hk, hmap, BitVec.toNat_ofNat]
  exact Nat.mod_eq_of_lt (hnode.trans (by decide))

theorem LgpageInv.free (h : LgpageInv pageTbl s) (hnode : node < nnuma)
    (hpg : pg ∈ s.inUse node) (hfree : lgpageFree pageTbl s pg = some t) :
    LgpageInv pageTbl t := by
  obtain ⟨k, hk, rfl⟩ := mem_takenPages.mp ((h.taken node hnode).mem_iff.mp
    (List.mem_append_left _ hpg))
  have hk' : k < lgpageMetaEnts := hk.trans_le (h.bound node hnode)
  unfold lgpageFree at hfree
  rw [addrToNumaNode_lgpage hnode hk', if_pos hnode] at hfree
  cases hfree
  constructor
  case taken =>
    intro node' hnode'
    rcases eq_or_ne node' node with rfl | hne
    · change (update s.inUse node' _ node' ++
        (update s.nodes node' _ node').pages).Perm
          ((List.range (update s.nodes node' _ node').idx).map _)
      rw [update_self, update_self]
      have hback := List.perm_cons_erase hpg
      exact List.perm_middle.trans ((hback.symm.append_right _).trans
        (h.taken node' hnode'))
    · change (update s.inUse node _ node' ++
        (update s.nodes node _ node').pages).Perm
          ((List.range (update s.nodes node _ node').idx).map _)
      rw [update_of_ne hne, update_of_ne hne]
      exact h.taken node' hnode'
  case bound =>
    intro node' hnode'
    change (update s.nodes node _ node').idx ≤ _
    rcases eq_or_ne node' node with rfl | hne
    · rw [update_self]
      exact h.bound node' hnode'
    · rw [update_of_ne hne]
      exact h.bound node' hnode'
  case flagged =>
    intro node' hnode' k' hk'' hflag
    rw [LgpageState.setInUse_page, LgpageState.setNode_page, lgpageDestroy]
      at hflag
    change _ ∈ update s.inUse node _ node'
    by_cases heq : lgpageNodePage pageTbl node' k' = lgpageNodePage pageTbl node k
    · rw [heq, LgpageState.setPage_page] at hflag
      exact absurd BitVec.zero_and hflag
    · rw [LgpageState.setPage_page_of_ne _ _ heq] at hflag
      have hold := h.flagged node' hnode' k' hk'' hflag
      rcases eq_or_ne node' node with rfl | hne
      · rw [update_self]
        exact (List.mem_erase_of_ne heq).mpr hold
      · rwa [update_of_ne hne]

/-- An allocation keeps the structs together if the page is created or there
is no struct for it, and loses one otherwise. -/
theorem LgpageInv.alloc (h : LgpageInv pageTbl s) (hnode : node < nnuma)
    (mapping : LgpageMapping) :
    ∃ t r, lgpageAllocOnNode pageTbl s node mapping = some (t, r) ∧
      (createsPage s (.alloc node mapping) →
        LgpageInv pageTbl t ∧ (r = none → t = s)) ∧
      (¬ createsPage s (.alloc node mapping) → ¬ PagesKept pageTbl t node) := by
  cases htake : lgpageTake pageTbl s node with
  | none =>
    refine ⟨s, none, ?_, fun _ => ⟨h, fun _ => rfl⟩, fun hfails => ?_⟩
    · rw [lgpageAllocOnNode, htake]
    · exfalso
      apply hfails
      unfold lgpageTake at htake
      split at htake
      · cases htake
      · rename_i hpages
        split_ifs at htake with hfull
        exact .inr ⟨hpages, hfull⟩
  | some taken =>
    obtain ⟨u, pg⟩ := taken
    obtain ⟨k, rfl, htook⟩ := h.take hnode htake
    have hroom : ¬ ((s.nodes node).pages = [] ∧
        lgpageMetaEnts ≤ (s.nodes node).idx) := by
      rintro ⟨hpages, hfull⟩
      rw [lgpageTake, hpages] at htake
      simp [hfull] at htake
    have hflag := not_not.mpr (htook.unflagged h hnode)
    cases mapping with
    | mapped paddr =>
      refine ⟨_, some (lgpageNodePage pageTbl node k), ?_,
        fun _ => ⟨htook.create h hnode
          ⟨pageFlagLarge ||| pageFlagInUse, 1, paddr⟩, nofun⟩, ?_⟩
      · rw [lgpageAllocOnNode, htake]
        exact if_neg hflag
      · exact fun hfails => absurd (.inl ⟨paddr, rfl⟩) hfails
    | noMapping | noPaddr =>
      refine ⟨u, none, ?_, fun hcreates => ?_, fun _ => htook.lost hnode⟩
      · rw [lgpageAllocOnNode, htake]
        exact if_neg hflag
      · rcases hcreates with ⟨paddr, hmapped⟩ | hout
        · cases hmapped
        · exact absurd hout hroom

theorem LgpageInv.next (h : LgpageInv pageTbl s) {a : LgpageAct}
    (hcreates : createsPage s a) (hnext : lgpageNext pageTbl s a = some t) :
    LgpageInv pageTbl t := by
  cases a with
  | alloc node mapping =>
    rw [lgpageNext] at hnext
    split_ifs at hnext with hnode
    obtain ⟨u, r, halloc, hkeeps, -⟩ := h.alloc hnode mapping
    rw [halloc] at hnext
    cases hnext
    exact (hkeeps hcreates).1
  | free node pg =>
    rw [lgpageNext] at hnext
    split_ifs at hnext with hpg
    exact h.free hpg.1 hpg.2 hnext

theorem lgpageInv_init (hs : (lgpageSystem pageTbl).init s) :
    LgpageInv pageTbl s := by
  obtain ⟨hnodes, hpage, huse⟩ := hs
  constructor
  case taken =>
    intro node _
    rw [takenPages, hnodes, huse]
    exact List.Perm.refl _
  case bound =>
    intro node _
    rw [hnodes]
    exact Nat.zero_le _
  case flagged =>
    intro node _ k _ hflag
    rw [hpage] at hflag
    exact absurd BitVec.zero_and hflag

end Steps

/-- As long as every page is created that a struct was found for, every struct
is accounted for. From then on a call keeps it so, and fails without a loss, if
and only if it is again such a call. -/
theorem large_pages_kept_iff (pageTbl : BitVec 64) {s : LgpageState}
    (hs : (lgpageSystem pageTbl).Reach createsPage s) :
    (∀ node < nnuma, PagesKept pageTbl s node) ∧
      ∀ a t, lgpageNext pageTbl s a = some t →
        (LgpageLaw pageTbl s t a ↔ createsPage s a) := by
  have hinv : LgpageInv pageTbl s :=
    hs.invariant (fun _ => lgpageInv_init)
      fun _ _ _ hinv hcreates hnext => hinv.next hcreates hnext
  refine ⟨fun node hnode => hinv.kept hnode, fun a t hnext => ?_⟩
  cases a with
  | alloc node mapping =>
    have hstep := hnext
    rw [lgpageNext] at hstep
    split_ifs at hstep with hnode
    obtain ⟨u, r, halloc, hkeeps, hloses⟩ := hinv.alloc hnode mapping
    rw [halloc] at hstep
    cases hstep
    constructor
    · intro hlaw
      by_contra hfails
      exact hloses hfails (hlaw.1 node hnode)
    · intro hcreates
      obtain ⟨hafter, hsame⟩ := hkeeps hcreates
      refine ⟨fun node hnode => hafter.kept hnode, fun hnone => ?_⟩
      rw [halloc] at hnone
      cases hnone
      rw [hsame rfl]
      exact fun _ _ => Iff.rfl
  | free node pg =>
    apply iff_of_true _ trivial
    have hafter : LgpageInv pageTbl t :=
      hinv.next (show createsPage s (.free node pg) from trivial) hnext
    exact ⟨fun node hnode => hafter.kept hnode, trivial⟩

def emptyLgpages : LgpageState :=
  ⟨fun _ => ⟨0, []⟩, fun _ => ⟨0, 0, 0⟩, fun _ => []⟩

theorem emptyLgpages_init : (lgpageSystem 0).init emptyLgpages :=
  ⟨fun _ => rfl, fun _ => rfl, fun _ => rfl⟩

/-- Two pages are allocated. The first is freed, allocated again and stays in
use, the second is freed. -/
def lgpageReuseRun : List LgpageAct :=
  [.alloc 0 (.mapped 0x40000000), .alloc 0 (.mapped 0x40200000), .free 0 0,
    .alloc 0 (.mapped 0x40400000), .free 0 (lgpageNodePage 0 0 1)]

theorem lgpageReuseRun_isSome :
    ((lgpageSystem 0).exec emptyLgpages lgpageReuseRun).isSome = true := by
  decide

def lgpageReused : LgpageState :=
  ((lgpageSystem 0).exec emptyLgpages lgpageReuseRun).get lgpageReuseRun_isSome

theorem lgpageReused_reach : (lgpageSystem 0).Reach createsPage lgpageReused := by
  apply System.Reach.exec_of (.init emptyLgpages_init) lgpageReuseRun
  · simp [lgpageReuseRun, createsPage]
  · exact (Option.some_get lgpageReuseRun_isSome).symm

theorem large_pages_kept_iff_reused :
    lgpageReused.inUse 0 = [0] ∧
      (lgpageReused.nodes 0).pages = [lgpageNodePage 0 0 1] ∧
      (∀ node < nnuma, PagesKept 0 lgpageReused node) ∧
      ∀ a t, lgpageNext 0 lgpageReused a = some t →
        (LgpageLaw 0 lgpageReused t a ↔ createsPage lgpageReused a) :=
  ⟨by decide, by decide, large_pages_kept_iff 0 lgpageReused_reach⟩

/-- The first allocation of a node, whose page cannot be mapped: the struct is
neither in use nor on the list. -/
theorem struct_lost_without_mapping :
    ∃ t, lgpageNext 0 emptyLgpages (.alloc 0 .noMapping) = some t ∧
      lgpageAllocOnNode 0 emptyLgpages 0 .noMapping = some (t, none) ∧
      ¬ PagesKept 0 t 0 ∧ Available 0 emptyLgpages 0 0 ∧ ¬ Available 0 t 0 0 := by
  refine ⟨_, rfl, rfl, ?_, ?_, ?_⟩
  · intro hkept
    rcases hkept 0 Nat.zero_lt_one with hin | hin
    · cases hin.1
    · cases hin.1
  · exact .inr ⟨0, Nat.le_refl 0, by decide, rfl⟩
  · rintro (hlist | ⟨k, hk, hlt, heq⟩)
    · cases hlist
    · have hzero : 0 = 0 ∧ 0 = k :=
        lgpageNodePage_inj (by decide) (by decide) (by decide) hlt
          (show lgpageNodePage 0 0 0 = lgpageNodePage 0 0 k from heq)
      obtain rfl := hzero.2
      exact absurd hk (by decide)

end Libut.Base
