import Libut.Base.SlabInit

/-!
The page count of a slab node (`nr_pages` in `base/slab.c`).
`__slab_node_alloc` counts every page that becomes the current one. A page from
the page allocator is new to the node, but a page of the partial list was
counted when it was new: each time one comes back, the count moves one further
away from the number of pages of the node. The runs are those of the build with
`DEBUG`, where the assert on `pg_off` stops a node of `node_slab`.
-/

namespace Libut.Base

open Function Machine

variable {n : SlabNode} {s t : SlabState}

structure SlabState.Owns (s : SlabState) (full part : List Nat) : Prop where
  lists : Lists s.links (slabLists full part)
  held : ∀ pg, s.held pg = true ↔ pg ∈ full ++ part ++ s.curPg.toList
  nodup : (full ++ part ++ s.curPg.toList).Nodup

/-- `nr_pages` is the number of pages of the node. -/
def SlabState.PagesCounted (s : SlabState) : Prop :=
  ∃ full part, s.Owns full part ∧
    s.nrPages =
      (full.length + part.length + if s.curPg.isSome then 1 else 0 : Nat)

def SlabState.needsPage (s : SlabState) : Prop :=
  ∀ pg ∈ s.curPg, s.itemCount pg = 0

instance (s : SlabState) : Decidable s.needsPage :=
  inferInstanceAs (Decidable (∀ pg ∈ s.curPg, s.itemCount pg = 0))

def currentIsNew (s : SlabState) : SlabAct → Prop
  | .alloc _ => s.needsPage → listEmpty s.links .partialList = true
  | _ => True

instance (s : SlabState) (a : SlabAct) : Decidable (currentIsNew s a) :=
  match a with
  | .alloc _ => inferInstanceAs
      (Decidable (s.needsPage → listEmpty s.links .partialList = true))
  | .free _ => .isTrue trivial
  | .write _ _ => .isTrue trivial
  | .foreign .. => .isTrue trivial

section Counting

variable {full part : List Nat} {F : Finset Nat}

theorem SlabInv.owns (h : SlabInv n s) : ∃ full part, s.Owns full part := by
  obtain ⟨full, part, free, hpages, hlists⟩ := h
  refine ⟨full, part, hlists.queues, fun pg => ?_, ?_⟩
  · rw [List.mem_append, List.mem_append, Option.mem_toList, hlists.full_iff,
      hlists.part_iff]
    constructor
    · intro hheld
      by_cases hcur : s.curPg = some pg
      · exact .inr hcur
      · rcases lt_or_ge (s.itemCount pg) slabPartialThresh with hlt | hge
        · exact .inl (.inl ⟨hheld, hcur, hlt⟩)
        · exact .inl (.inr ⟨hheld, hcur, hge⟩)
    · rintro ((hfull | hpart) | hcur)
      · exact hfull.1
      · exact hpart.1
      · exact (hpages.cur pg hcur).1
  · have hfull := pages_nodup hlists.queues (h := .fullList) rfl
    have hpart := pages_nodup hlists.queues (h := .partialList) rfl
    rw [List.nodup_append', List.nodup_append']
    refine ⟨⟨hfull, hpart, fun pg hmem hmem' => ?_⟩, ?_, fun pg hmem hcur => ?_⟩
    · have hlt := ((hlists.full_iff pg).mp hmem).2.2
      have hge := ((hlists.part_iff pg).mp hmem').2.2
      omega
    · cases s.curPg with
      | none => exact List.nodup_nil
      | some pg => exact List.nodup_singleton pg
    · obtain ⟨hnot, hnot'⟩ := hlists.cur_off (Option.mem_toList.mp hcur)
      exact (List.mem_append.mp hmem).elim hnot hnot'

theorem SlabState.Owns.card (h : s.Owns full part)
    (hF : ∀ pg, pg ∈ F ↔ s.held pg = true) :
    F.card =
      full.length + part.length + if s.curPg.isSome then 1 else 0 := by
  have heq : F = (full ++ part ++ s.curPg.toList).toFinset := by
    ext pg
    rw [hF, h.held, List.mem_toFinset]
  rw [heq, List.toFinset_card_of_nodup h.nodup, List.length_append,
    List.length_append]
  cases s.curPg <;> rfl

theorem pagesCounted_iff (h : SlabInv n s)
    (hF : ∀ pg, pg ∈ F ↔ s.held pg = true) :
    s.PagesCounted ↔ s.nrPages = F.card := by
  constructor
  · rintro ⟨full, part, howns, hcount⟩
    rw [hcount, howns.card hF]
  · intro hcount
    obtain ⟨full, part, howns⟩ := h.owns
    exact ⟨full, part, howns, by rw [hcount, howns.card hF]⟩

inductive PageStep (s t : SlabState) : Prop
  | same (hheld : t.held = s.held) (hcount : t.nrPages = s.nrPages)
  | taken (pg : Nat) (hpg : s.held pg = false)
      (hheld : t.held = update s.held pg true)
      (hcount : t.nrPages = s.nrPages + 1)
  | released (pg : Nat) (hpg : s.held pg = true)
      (hheld : t.held = update s.held pg false)
      (hcount : t.nrPages = s.nrPages - 1)

def Recounted (s t : SlabState) : Prop :=
  t.held = s.held ∧ t.nrPages = s.nrPages + 1

theorem PageStep.congr {u : SlabState} (h : PageStep s t)
    (hheld : u.held = t.held) (hcount : u.nrPages = t.nrPages) :
    PageStep s u := by
  cases h with
  | same hheld' hcount' => exact .same (hheld.trans hheld') (hcount.trans hcount')
  | taken pg hpg hheld' hcount' =>
    exact .taken pg hpg (hheld.trans hheld') (hcount.trans hcount')
  | released pg hpg hheld' hcount' =>
    exact .released pg hpg (hheld.trans hheld') (hcount.trans hcount')

theorem PageStep.counted (h : PageStep s t)
    (hF : ∀ pg, pg ∈ F ↔ s.held pg = true) (hcount : s.nrPages = F.card) :
    ∃ F' : Finset Nat, (∀ pg, pg ∈ F' ↔ t.held pg = true) ∧
      t.nrPages = F'.card := by
  cases h with
  | same hheld hcount' =>
    exact ⟨F, fun pg => by rw [hheld, hF], hcount'.trans hcount⟩
  | taken pg hpg hheld hcount' =>
    have hnot : pg ∉ F := by
      rw [hF, hpg]
      exact nofun
    refine ⟨insert pg F, fun q => ?_, ?_⟩
    · rw [Finset.mem_insert, hF, hheld]
      rcases eq_or_ne q pg with rfl | hne
      · rw [update_self]
        exact iff_of_true (.inl rfl) rfl
      · rw [update_of_ne hne, or_iff_right hne]
    · rw [hcount', hcount, Finset.card_insert_of_notMem hnot]
      exact (Nat.cast_succ _).symm
  | released pg hpg hheld hcount' =>
    have hmem : pg ∈ F := (hF pg).mpr hpg
    refine ⟨F.erase pg, fun q => ?_, ?_⟩
    · rw [Finset.mem_erase, hF, hheld]
      rcases eq_or_ne q pg with rfl | hne
      · rw [update_self]
        exact iff_of_false (fun h => h.1 rfl) nofun
      · rw [update_of_ne hne, and_iff_right hne]
    · have hcard := Finset.card_erase_add_one hmem
      omega

end Counting

section Steps

variable {fresh : Option Nat}

theorem slabNodeTake_pages {pg item : Nat}
    (htake : slabNodeTake n s pg = .ok (t, item)) :
    t.held = s.held ∧ t.nrPages = s.nrPages := by
  unfold slabNodeTake at htake
  split at htake
  · cases htake
    exact ⟨rfl, rfl⟩
  · split_ifs at htake
    cases htake
    exact ⟨rfl, rfl⟩

theorem slabNodeRefill_pages {L : Links SlabLink} {c r : Option Nat}
    (hfresh : s.pageFree fresh)
    (hrun : slabNodeRefill n { s with links := L, curPg := c } fresh =
      .ok (t, r)) :
    PageStep s t ∧ listEmpty L .partialList = true ∨
      Recounted s t ∧ ¬listEmpty L .partialList = true := by
  by_cases hempty : listEmpty L .partialList = true
  · have hpop : listPop L .partialList = (L, none) := if_pos hempty
    refine .inl ⟨?_, hempty⟩
    cases fresh with
    | none =>
      rw [slabNodeRefill_out hpop] at hrun
      cases hrun
      exact .same rfl rfl
    | some pg =>
      rw [slabNodeRefill_new hpop] at hrun
      cases hrun
      exact .taken pg (hfresh pg rfl) rfl rfl
  · have hpop : listPop L .partialList = (_, some (L.next .partialList)) :=
      if_neg hempty
    refine .inr ⟨?_, hempty⟩
    cases hnext : L.next .partialList with
    | link pg =>
      rw [hnext] at hpop
      rw [slabNodeRefill_reuse hpop] at hrun
      cases hrun
      exact ⟨rfl, rfl⟩
    | fullList | partialList =>
      simp only [slabNodeRefill, slabNodeGetPage, hpop, hnext] at hrun
      cases hrun

theorem listEmpty_addFull (L : Links SlabLink) (pg : Nat) :
    listEmpty (listAdd L .fullList (.link pg)) .partialList =
      listEmpty L .partialList := by
  have hnext : (listAdd L .fullList (.link pg)).next .partialList =
      L.next .partialList := by
    rfl
  rw [listEmpty, hnext, listEmpty]

theorem slabNodeCurrent_pages {r : Option Nat} (hfresh : s.pageFree fresh)
    (hrun : slabNodeCurrent n s fresh = .ok (t, r)) :
    PageStep s t ∧ currentIsNew s (.alloc fresh) ∨
      Recounted s t ∧ ¬currentIsNew s (.alloc fresh) := by
  unfold slabNodeCurrent at hrun
  unfold currentIsNew SlabState.needsPage
  cases hcur : s.curPg with
  | none =>
    rw [hcur] at hrun
    have hneeds : ∀ pg ∈ (none : Option Nat), s.itemCount pg = 0 := nofun
    rw [imp_iff_right hneeds]
    exact slabNodeRefill_pages hfresh hrun
  | some pg =>
    simp only [hcur] at hrun
    split_ifs at hrun with hcount
    · have hneeds : ∀ q ∈ some pg, s.itemCount q = 0 := by
        rintro q ⟨⟩
        exact hcount
      rw [imp_iff_right hneeds, ← listEmpty_addFull s.links pg]
      exact slabNodeRefill_pages hfresh hrun
    · cases hrun
      exact .inl ⟨.same rfl rfl, fun hneeds => absurd (hneeds pg rfl) hcount⟩

theorem slabNodeAlloc_pages {r : Option Nat} (hfresh : s.pageFree fresh)
    (hrun : slabNodeAlloc n s fresh = .ok (t, r)) :
    PageStep s t ∧ currentIsNew s (.alloc fresh) ∨
      Recounted s t ∧ ¬currentIsNew s (.alloc fresh) := by
  unfold slabNodeAlloc at hrun
  cases hcurrent : slabNodeCurrent n s fresh with
  | error e =>
    rw [hcurrent] at hrun
    cases hrun
  | ok p =>
    obtain ⟨u, pg⟩ := p
    have hpages := slabNodeCurrent_pages hfresh hcurrent
    rw [hcurrent] at hrun
    cases pg with
    | none =>
      cases hrun
      exact hpages
    | some pg =>
      change (slabNodeTake n u pg >>= _) = _ at hrun
      cases htake : slabNodeTake n u pg with
      | error e =>
        rw [htake] at hrun
        cases hrun
      | ok q =>
        obtain ⟨v, item⟩ := q
        obtain ⟨hheld, hcount⟩ := slabNodeTake_pages htake
        rw [htake] at hrun
        cases hrun
        refine hpages.imp (.imp_left fun hstep => ?_)
          (.imp_left fun hstep => ?_)
        · exact hstep.congr hheld hcount
        · exact ⟨hheld.trans hstep.1, hcount.trans hstep.2⟩

/-- A page is counted right unless it comes from the partial list. -/
theorem slabNext_pages {a : SlabAct} (h : SlabInv n s)
    (hnext : slabNext n s a = some t) :
    PageStep s t ∧ currentIsNew s a ∨ Recounted s t ∧ ¬currentIsNew s a := by
  cases a with
  | alloc fresh =>
    simp only [slabNext] at hnext
    split_ifs at hnext with hfresh
    cases hrun : slabNodeAlloc n s fresh with
    | error e =>
      rw [hrun] at hnext
      cases hnext
    | ok p =>
      rw [hrun] at hnext
      cases hnext
      exact slabNodeAlloc_pages hfresh hrun
  | free item =>
    obtain ⟨hitem, rfl⟩ := guarded hnext
    obtain ⟨_, _, _, hpages, -⟩ := h
    refine .inl ⟨?_, trivial⟩
    unfold slabNodeFree slabNodeSettle
    split_ifs
    · exact .same rfl rfl
    · exact .same rfl rfl
    · exact .released _ (hpages.live item hitem) rfl rfl
    · exact .same rfl rfl
  | write a v | foreign pg next count linkNext linkPrev =>
    obtain ⟨-, rfl⟩ := guarded hnext
    exact .inl ⟨.same rfl rfl, trivial⟩

/-- From a state whose pages are counted, a step counts right if and only if no
page of the partial list becomes the current one. -/
theorem SlabState.PagesCounted.next_iff {a : SlabAct} (hcount : s.PagesCounted)
    (h : SlabInv n s) (h' : SlabInv n t) (hnext : slabNext n s a = some t) :
    t.PagesCounted ↔ currentIsNew s a := by
  obtain ⟨full, part, howns⟩ := h.owns
  have hF : ∀ pg, pg ∈ (full ++ part ++ s.curPg.toList).toFinset ↔
      s.held pg = true := by
    intro pg
    rw [List.mem_toFinset, howns.held]
  rw [pagesCounted_iff h hF] at hcount
  rcases slabNext_pages h hnext with ⟨hstep, hnew⟩ | ⟨⟨hheld, hmore⟩, hold⟩
  · obtain ⟨F', hF', hcard⟩ := hstep.counted hF hcount
    exact iff_of_true ((pagesCounted_iff h' hF').mpr hcard) hnew
  · refine iff_of_false (fun hcounted => ?_) hold
    have hcard := (pagesCounted_iff h' fun pg => by rw [hheld, hF]).mp hcounted
    omega

end Steps

section Runs

/-- Every node of the library has more items than are free on a full page, and
they fit the page or run out of it before they are all carved. -/
theorem SlabSetup.node_geometry {setup : SlabSetup} (hn : setup.node = .ok n) :
    slabPartialThresh < n.nrElems ∧ (n.Fits ∨ n.Overruns) := by
  cases setup with
  | create size flags =>
    obtain ⟨hmany, hfit⟩ := slabCreate_fits hn
    exact ⟨hmany, .inl hfit⟩
  | nodeSlab =>
    cases hn
    exact ⟨by decide, .inr ⟨by decide, by decide⟩⟩
  | smpageSlab =>
    cases hn
    exact ⟨by decide, .inl (by unfold SlabNode.Fits; decide)⟩

theorem pagesCounted_start (h : (slabSystem n).init s) : s.PagesCounted := by
  have hF : ∀ pg, pg ∈ (∅ : Finset Nat) ↔ s.held pg = true := by
    intro pg
    rw [h.2.2.2.2.1 pg]
    exact iff_of_false (Finset.notMem_empty pg) nofun
  rw [pagesCounted_iff (SlabInv.start h : SlabInv n s) hF]
  exact h.2.2.1

theorem pagesCounted_reach (hmany : slabPartialThresh < n.nrElems)
    (hnode : n.Fits ∨ n.Overruns) (hs : (slabSystem n).Reach currentIsNew s) :
    s.PagesCounted := by
  have hinv : ∀ s, (slabSystem n).Reach currentIsNew s → SlabInv n s :=
    fun s hs => (slabInv_reach hmany hnode (hs.mono fun _ _ _ => trivial)).1
  induction hs with
  | init hinit => exact pagesCounted_start hinit
  | @step s t a hs hnew hnext ih =>
    have ht := hinv t (.step hs hnew hnext)
    exact (ih.next_iff (hinv s hs) ht hnext).mpr hnew

/-- In every run in which no page of the partial list becomes the current one,
`nr_pages` is the number of pages of the node, and the next step keeps this if
and only if it does not take such a page either. -/
theorem slab_pages_counted_iff {setup : SlabSetup} (hn : setup.node = .ok n)
    (hs : (slabSystem n).Reach currentIsNew s) :
    s.PagesCounted ∧ ∀ a t, (slabSystem n).next s a = some t →
      (t.PagesCounted ↔ currentIsNew s a) := by
  obtain ⟨hmany, hnode⟩ := SlabSetup.node_geometry hn
  have hcount := pagesCounted_reach hmany hnode hs
  obtain ⟨hinv, hon⟩ := slabInv_reach hmany hnode
    (hs.mono fun _ _ _ => trivial)
  refine ⟨hcount, fun a t hnext => ?_⟩
  exact hcount.next_iff hinv (hinv.next hon hmany hnode hnext).1 hnext

end Runs

/-- A page is used up, another is started, half of the items of the first are
freed, and the second is used up as well. -/
def reuseRun : List SlabAct :=
  .alloc (some 1) :: List.replicate 7 (.alloc none) ++
    [.alloc (some 2), .free (itemAddr eightItems 1 0),
      .free (itemAddr eightItems 1 1), .free (itemAddr eightItems 1 2),
      .free (itemAddr eightItems 1 3)] ++ List.replicate 7 (.alloc none)

theorem reuseRun_isSome :
    (((slabSystem eightItems).restrict
      fun s a => decide (currentIsNew s a)).exec emptySlab reuseRun).isSome =
        true := by
  with_unfolding_all decide

def afterReuseRun : SlabState :=
  (((slabSystem eightItems).restrict
    fun s a => decide (currentIsNew s a)).exec emptySlab reuseRun).get
      reuseRun_isSome

theorem afterReuseRun_reach :
    (slabSystem eightItems).Reach currentIsNew afterReuseRun :=
  .of_checked ⟨rfl, rfl, rfl, ⟨_, rfl⟩, fun _ => rfl, rfl⟩
    (Option.some_get reuseRun_isSome).symm

theorem eightItems_node : (SlabSetup.create 512 0).node = .ok eightItems := by
  with_unfolding_all rfl

/-- The next item comes from the first page, which is counted again: the node
has two pages and counts three. -/
theorem page_counted_twice :
    ∃ t, slabNext eightItems afterReuseRun (.alloc none) = some t ∧
      afterReuseRun.nrPages = 2 ∧ t.nrPages = 3 ∧
      (∀ pg, t.held pg = true ↔ pg = 1 ∨ pg = 2) ∧ ¬t.PagesCounted := by
  obtain ⟨hmany, hnode⟩ := SlabSetup.node_geometry eightItems_node
  obtain ⟨hinv, hon⟩ := slabInv_reach hmany hnode
    (afterReuseRun_reach.mono fun _ _ _ => trivial)
  have hcount := pagesCounted_reach hmany hnode afterReuseRun_reach
  have hnew : ¬currentIsNew afterReuseRun (.alloc none) := by
    with_unfolding_all decide
  have hpages : afterReuseRun.nrPages = 2 := by with_unfolding_all rfl
  have hheld : afterReuseRun.held =
      update (update (fun _ => false) 1 true) 2 true := by
    with_unfolding_all rfl
  have hsome :
      (slabNext eightItems afterReuseRun (.alloc none)).isSome = true := by
    with_unfolding_all decide
  obtain ⟨t, hnext⟩ := Option.isSome_iff_exists.mp hsome
  have hinv' := (hinv.next hon hmany hnode hnext).1
  obtain ⟨hsame, hmore⟩ :=
    ((slabNext_pages hinv hnext).resolve_left fun h => hnew h.2).1
  refine ⟨t, hnext, hpages, ?_, fun pg => ?_, ?_⟩
  · rw [hmore, hpages]
    rfl
  · rw [hsame, hheld]
    simp [update_apply, or_comm]
  · rwa [hcount.next_iff hinv hinv' hnext]

/-- Up to there the two pages are counted right. -/
theorem slab_pages_counted_iff_reuse :
    afterReuseRun.nrPages = 2 ∧ afterReuseRun.PagesCounted ∧
      ∀ t, (slabSystem eightItems).next afterReuseRun (.alloc none) = some t →
        ¬t.PagesCounted := by
  have hcounted := slab_pages_counted_iff eightItems_node afterReuseRun_reach
  refine ⟨by with_unfolding_all rfl, hcounted.1, fun t hnext => ?_⟩
  rw [hcounted.2 _ t hnext]
  with_unfolding_all decide

end Libut.Base
