import Libut.Base.SlabInv
import Libut.Base.TcacheRun

/-!
A thread-local cache over a slab (`slab_tcache_alloc`, `slab_tcache_free` and
`slab_create_tcache` of `base/slab.c`), on a machine with one NUMA node. The
cache assumes of its backing store that it returns whole magazines of items that
nobody has; the slab assumes that only allocated items are freed. Put together,
each meets what the other assumes.

The links of both are in the items. Each side has its own view of them, and the
steps that write to words which it does not own give it any contents of them.
-/

namespace Libut.Base

open Function Machine

structure SlabCache (κ : Type) where
  cache : TcacheState κ Nat
  node : SlabState
  /-- Items that a call of `slab_tcache_free`, or of `slab_tcache_alloc` that
  has failed, still has to free. -/
  returning : List (κ × Nat)

inductive SlabCacheAct (κ : Type)
  | cache (a : TcAct κ Nat)
  | fetch (k : κ) (fresh : List (Option Nat))
  | freeMag (k : κ)
  | giveBack (k : κ)
  | node (a : SlabAct)

/-- The loop of `slab_tcache_alloc`, under `page_lock`, with what
`page_alloc_on_node` returns in each pass if it is called: the items, and
whether all of them could be allocated. `none` is a failed assertion. -/
def slabTcacheAlloc (n : SlabNode) :
    SlabState → List (Option Nat) → Option (SlabState × List Nat × Bool)
  | s, [] => some (s, [], true)
  | s, fresh :: rest =>
    if s.pageFree fresh then
      match slabNodeAlloc n s fresh with
      | .ok (t, some item) =>
        (slabTcacheAlloc n t rest).map fun r => (r.1, item :: r.2.1, r.2.2)
      | .ok (t, none) => some (t, [], false)
      | .error _ => none
    else none

variable {κ : Type} [DecidableEq κ]

/-- `ops->alloc`; the items of a call that fails are freed, last first. -/
def slabTcacheFetch (s : SlabCache κ) (k : κ) :
    SlabState × List Nat × Bool → SlabCache κ
  | (node, items, true) =>
    { s with cache := (tcacheFetch s.cache k (some items)).1, node := node }
  | (node, items, false) =>
    { cache := (tcacheFetch s.cache k none).1, node := node
      returning := items.reverse.map (k, ·) ++ s.returning }

/-- `tcache_free_mag` up to the loop of `slab_tcache_free`. -/
def slabTcacheFree (s : SlabCache κ) (k : κ) (hdr : Nat) :
    Except TcFault (SlabCache κ) := do
  let items ← collectItems s.cache.nextItem tcacheMaxMagSize (some hdr)
  let cache ← tcacheFreeMag s.cache k hdr
  .ok { s with
    cache := cache, returning := items.map (k, ·) ++ s.returning }

/-- The step does not go to the backing store. -/
def TcAct.isLocal : TcAct κ Nat → Bool
  | .fetch _ _ | .freeMag _ => false
  | _ => true

def TcAct.thread : TcAct κ Nat → Option κ
  | .alloc k | .fetch k _ | .load k | .free k _ | .reclaim k | .freeMag k
  | .uncount k => some k
  | .write _ _ _ => none

def SlabAct.isForeign : SlabAct → Bool
  | .alloc _ | .free _ => false
  | _ => true

/-- The thread is in one of the loops that free items. -/
def SlabCache.busy (s : SlabCache κ) (k : Option κ) : Bool :=
  s.returning.any fun p => some p.1 == k

def slabCacheNext (n : SlabNode) (s : SlabCache κ) :
    SlabCacheAct κ → Option (SlabCache κ)
  | .cache a =>
    if a.isLocal ∧ ¬ s.busy a.thread then
      ((tcacheSystem κ Nat s.cache.magSize).next s.cache a).map
        ({ s with cache := · })
    else none
  | .fetch k fresh =>
    if s.cache.pc k = .needMag ∧ ¬ s.busy k ∧ fresh.length = s.cache.magSize
    then (slabTcacheAlloc n s.node fresh).map (slabTcacheFetch s k)
    else none
  | .freeMag k =>
    match s.cache.pc k with
    | .reclaiming hdr =>
      if s.busy k then none else (slabTcacheFree s k hdr).toOption
    | _ => none
  | .giveBack k =>
    (s.returning.find? (·.1 = k)).map fun p =>
      { s with
        node := slabNodeFree n s.node p.2
        returning := s.returning.erase p }
  | .node a =>
    if a.isForeign then (slabNext n s.node a).map ({ s with node := · })
    else none

def slabCacheSystem (κ : Type) [DecidableEq κ] (n : SlabNode) (magSize : Nat) :
    System (SlabCache κ) (SlabCacheAct κ) where
  init s := tcacheStart magSize s.cache ∧ slabStart s.node ∧ s.returning = []
  next := slabCacheNext n

section Cache

variable {s t : TcacheState κ Nat} {f : TcPlace κ → List Nat} {magSize : Nat}

theorem tcacheSystem_next {a : TcAct κ Nat} :
    (tcacheSystem κ Nat magSize).next s a = some t ↔
      ∃ answer, tcStep s a = some (.ok (t, answer)) := by
  simp only [tcacheSystem]
  split
  · next u answer hr =>
    simp [hr]
  · next hr =>
    simp only [reduceCtorEq, false_iff]
    rintro ⟨answer, hstep⟩
    exact hr t answer hstep

/-- What holds of the cache in every run. -/
structure CacheInv (magSize : Nat) (s : TcacheState κ Nat) : Prop where
  places : ∃ f, TcInv s f
  size : s.magSize = magSize

variable [Fintype κ]

theorem cacheInv_reach (hpos : 1 ≤ magSize) (hmax : magSize ≤ tcacheMaxMagSize)
    (hs : (tcacheSystem κ Nat magSize).Reach anyStep s) :
    CacheInv magSize s := by
  obtain ⟨hinv, -, hsize⟩ := tcInv_reach hpos hmax hs
  exact ⟨hinv, hsize⟩

omit [Fintype κ] in
theorem CacheInv.local_out (h : CacheInv magSize s) (hpos : 1 ≤ magSize)
    {a : TcAct κ Nat} (ha : a.isLocal = true)
    (hnext : (tcacheSystem κ Nat magSize).next s a = some t) :
    t.out = s.out := by
  obtain ⟨⟨f, hinv⟩, rfl⟩ := h
  obtain ⟨answer, hr⟩ := tcacheSystem_next.mp hnext
  cases a with
  | alloc k =>
    obtain ⟨hpc, hr⟩ := guarded hr
    obtain ⟨u, answer', hrun, halloc⟩ := tcacheAlloc_ok hinv hpc
    rw [hrun] at hr
    cases hr
    exact halloc.store.out
  | load k =>
    simp only [tcStep] at hr
    split at hr
    · next items hpc =>
      obtain ⟨u, item, hrun, -, -, -, hout, -⟩ := tcacheLoad_ok hinv hpos hpc
      rw [hrun] at hr
      cases hr
      exact hout
    · cases hr
  | free k item =>
    obtain ⟨hpc, hr⟩ := guarded hr
    obtain ⟨u, hrun, -, hstore, -⟩ := tcacheFree_ok hinv hpos hpc.2 hpc.1
    rw [hrun] at hr
    cases hr
    exact hstore.out
  | reclaim k | write x v w =>
    obtain ⟨-, hr⟩ := guarded hr
    cases hr
    rfl
  | uncount k =>
    simp only [tcStep] at hr
    split at hr
    · cases hr
      rfl
    · cases hr
  | fetch k items | freeMag k => cases ha

omit [Fintype κ] [DecidableEq κ] in
theorem perm_filter_append {out xs : List Nat} (hout : out.Nodup)
    (hxs : xs.Nodup) (hmem : ∀ x ∈ xs, x ∈ out) :
    out.Perm (out.filter (· ∉ xs) ++ xs) := by
  have hnew : (out.filter (· ∉ xs) ++ xs).Nodup := by
    refine (hout.filter _).append hxs fun x hx hx' => ?_
    exact of_decide_eq_true (List.mem_filter.mp hx).2 hx'
  rw [List.perm_ext_iff_of_nodup hout hnew]
  intro x
  by_cases hx : x ∈ xs
  · exact iff_of_true (hmem x hx) (List.mem_append_right _ hx)
  · simp [hx]

omit [Fintype κ] in
/-- The magazine that `tcache_free_mag` is called with. -/
theorem CacheInv.collect (h : CacheInv magSize s)
    (hmax : magSize ≤ tcacheMaxMagSize) {k : κ} {hdr : Nat}
    (hpc : s.pc k = .reclaiming hdr) :
    ∃ items t, collectItems s.nextItem tcacheMaxMagSize (some hdr) =
        .ok items ∧ tcacheFreeMag s k hdr = .ok t ∧
      s.out.Perm (t.out ++ items) := by
  obtain ⟨⟨f, hinv⟩, rfl⟩ := h
  have hcall := (hinv.handle k).call
  rw [hpc] at hcall
  obtain ⟨ms, hms, hitems⟩ := hcall
  obtain ⟨rest, ms', rfl, hchain, hlength, -⟩ := hms.pop
  have hcollect := collectItems_ok hchain (hlength.trans_le hmax)
  obtain ⟨t, hfree, hout⟩ : ∃ t, tcacheFreeMag s k hdr = .ok t ∧
      t.out = s.out.filter (· ∉ hdr :: rest) := by
    unfold tcacheFreeMag
    rw [hcollect]
    exact ⟨_, if_neg (not_not.mpr hlength), rfl⟩
  have hcalled := hinv.spread.nodup (.inCall k)
  rw [hitems] at hcalled
  have hmem : ∀ x ∈ hdr :: rest, x ∈ s.out := fun x hx =>
    hinv.spread.mem_out (p := .inCall k)
      (hitems ▸ List.mem_append_left _ hx)
  refine ⟨hdr :: rest, t, hcollect, hfree, ?_⟩
  rw [hout]
  exact perm_filter_append hinv.distinct (List.nodup_append.mp hcalled).1 hmem

end Cache

section Node

variable {n : SlabNode} {s : SlabState} {fresh : Option Nat}

theorem slabNodeFree_live (item : Nat) :
    (slabNodeFree n s item).live = s.live.erase item := by
  unfold slabNodeFree slabNodeSettle
  split_ifs <;> rfl

variable (hmany : slabPartialThresh < n.nrElems) (hfit : n.Fits)
  (hs : (slabSystem n).Reach anyStep s)
include hmany hfit hs

theorem slab_live_nodup : s.live.Nodup := by
  obtain ⟨⟨full, part, free, hpages, -⟩, -⟩ :=
    slabInv_reach hmany (.inl hfit) hs
  exact hpages.live_nodup

theorem slab_alloc_reach (hfresh : s.pageFree fresh) :
    ∃ t r, slabNodeAlloc n s fresh = .ok (t, r) ∧
      (slabSystem n).Reach anyStep t ∧ t.live = r.toList ++ s.live := by
  obtain ⟨hinv, hon⟩ := slabInv_reach hmany (.inl hfit) hs
  obtain ⟨t, r, hrun, halloc, -⟩ := (slabNodeAlloc_ok hinv hon
    (SlabNode.offset_le (.inl hfit)) hmany hfresh).resolve_left
      fun hend => hend.2 hfit
  refine ⟨t, r, hrun, .step (a := .alloc fresh) hs trivial ?_, halloc.live⟩
  simp only [slabSystem, slabNext, if_pos hfresh, hrun]
  rfl

omit hs in
theorem slabTcacheAlloc_reach {fresh : List (Option Nat)} {t : SlabState}
    {items : List Nat} {done : Bool} (hs : (slabSystem n).Reach anyStep s)
    (hrun : slabTcacheAlloc n s fresh = some (t, items, done)) :
    (slabSystem n).Reach anyStep t ∧ t.live.Perm (items ++ s.live) ∧
      (done = true → items.length = fresh.length) := by
  induction fresh generalizing s items with
  | nil =>
    cases hrun
    exact ⟨hs, .refl _, fun _ => rfl⟩
  | cons first rest ih =>
    obtain ⟨hfresh, hrun⟩ := Option.ite_none_right_eq_some.mp hrun
    obtain ⟨u, r, halloc, hu, hlive⟩ := slab_alloc_reach hmany hfit hs hfresh
    rw [halloc] at hrun
    cases r with
    | none =>
      cases hrun
      exact ⟨hu, .of_eq hlive, nofun⟩
    | some item =>
      obtain ⟨⟨v, more, d⟩, hmore, heq⟩ := Option.map_eq_some_iff.mp hrun
      cases heq
      obtain ⟨hv, hperm, hlength⟩ := ih hu hmore
      refine ⟨hv, ?_, fun hd => congrArg (· + 1) (hlength hd)⟩
      rw [hlive] at hperm
      exact hperm.trans List.perm_middle

end Node

/-- The two sides run as they would alone and agree on the items. -/
structure SlabCacheInv (n : SlabNode) (magSize : Nat) (s : SlabCache κ) :
    Prop where
  cache : (tcacheSystem κ Nat magSize).Reach anyStep s.cache
  node : (slabSystem n).Reach anyStep s.node
  items : s.node.live.Perm (s.cache.out ++ s.returning.map Prod.snd)

section Steps

variable {n : SlabNode} {magSize : Nat} {s t : SlabCache κ} {k : κ}
  (hmany : slabPartialThresh < n.nrElems) (hfit : n.Fits)
  (h : SlabCacheInv n magSize s)
include hmany hfit h

theorem SlabCacheInv.fetch {fresh : List (Option Nat)}
    {r : SlabState × List Nat × Bool} (hsize : s.cache.magSize = magSize)
    (hpc : s.cache.pc k = .needMag) (hlength : fresh.length = magSize)
    (hrun : slabTcacheAlloc n s.node fresh = some r) :
    SlabCacheInv n magSize (slabTcacheFetch s k r) := by
  obtain ⟨node, items, done⟩ := r
  obtain ⟨hnode, hlive, hdone⟩ := slabTcacheAlloc_reach hmany hfit h.node hrun
  have hperm := hlive.trans (h.items.append_left items)
  have hstep {r : Option (List Nat)} (hstore : s.cache.storeOk r) :
      (tcacheSystem κ Nat magSize).Reach anyStep (tcacheFetch s.cache k r).1 :=
    h.cache.step (a := .fetch k r) trivial
      (tcacheSystem_next.mpr ⟨_, if_pos ⟨hpc, hstore⟩⟩)
  cases done with
  | true =>
    have hnodup := hperm.nodup_iff.mp (slab_live_nodup hmany hfit hnode)
    refine ⟨hstep ?_, hnode, ?_⟩
    · rintro l ⟨⟩
      obtain ⟨hitems, -, hnew⟩ := List.nodup_append.mp hnodup
      refine ⟨(hdone rfl).trans (hlength.trans hsize.symm), hitems, ?_⟩
      exact fun x hx hout => hnew x hx x (List.mem_append_left _ hout) rfl
    · rw [← List.append_assoc] at hperm
      exact hperm
  | false =>
    refine ⟨hstep nofun, hnode, hperm.trans ?_⟩
    change List.Perm _ (s.cache.out ++
      (items.reverse.map (k, ·) ++ s.returning).map Prod.snd)
    rw [List.map_append, List.map_map, ← List.append_assoc, ← List.append_assoc]
    refine .append_right _ (List.perm_append_comm.trans (.append_left _ ?_))
    exact (List.reverse_perm items).symm.trans (.of_eq (List.map_id _).symm)

omit hmany hfit in
theorem SlabCacheInv.giveBack {p : κ × Nat} (hp : p ∈ s.returning) :
    SlabCacheInv n magSize { s with
      node := slabNodeFree n s.node p.2
      returning := s.returning.erase p } := by
  have hlive : p.2 ∈ s.node.live := by
    rw [h.items.mem_iff]
    exact List.mem_append_right _ (List.mem_map_of_mem hp)
  refine ⟨h.cache, h.node.step (a := .free p.2) trivial (if_pos hlive), ?_⟩
  rw [slabNodeFree_live]
  have hback := (List.perm_cons_erase hp).map Prod.snd
  have hperm := (h.items.trans (.append_left _ hback)).trans List.perm_middle
  exact (hperm.erase p.2).trans (.of_eq (List.erase_cons_head ..))

variable [Fintype κ] (hpos : 1 ≤ magSize) (hmax : magSize ≤ tcacheMaxMagSize)
include hpos hmax

omit hmany hfit in
theorem SlabCacheInv.freeMag {hdr : Nat}
    (hpc : s.cache.pc k = .reclaiming hdr) :
    ∃ t, slabTcacheFree s k hdr = .ok t ∧ SlabCacheInv n magSize t := by
  obtain ⟨items, c, hcollect, hfree, hperm⟩ :=
    (cacheInv_reach hpos hmax h.cache).collect hmax hpc
  have hnext : (tcacheSystem κ Nat magSize).next s.cache (.freeMag k) =
      some c := by
    refine tcacheSystem_next.mpr ⟨none, ?_⟩
    simp only [tcStep, hpc, hfree]
    rfl
  refine ⟨{ s with cache := c, returning := items.map (k, ·) ++ s.returning },
    ?_, h.cache.step trivial hnext, h.node, h.items.trans ?_⟩
  · simp only [slabTcacheFree, hcollect, hfree]
    rfl
  · refine (hperm.append_right _).trans (.of_eq ?_)
    simp [Function.comp_def]

theorem SlabCacheInv.next {a : SlabCacheAct κ}
    (hnext : slabCacheNext n s a = some t) : SlabCacheInv n magSize t := by
  have hcache := cacheInv_reach hpos hmax h.cache
  cases a with
  | cache a =>
    obtain ⟨ha, hrun⟩ := Option.ite_none_right_eq_some.mp hnext
    obtain ⟨c, hc, rfl⟩ := Option.map_eq_some_iff.mp hrun
    refine ⟨h.cache.step trivial hc, h.node, ?_⟩
    rw [hcache.local_out hpos ha.1 hc]
    exact h.items
  | fetch k fresh =>
    obtain ⟨⟨hpc, -, hlength⟩, hrun⟩ :=
      Option.ite_none_right_eq_some.mp hnext
    obtain ⟨r, hr, rfl⟩ := Option.map_eq_some_iff.mp hrun
    exact h.fetch hmany hfit hcache.size hpc (hlength.trans hcache.size) hr
  | freeMag k =>
    simp only [slabCacheNext] at hnext
    split at hnext
    · next hdr hpc =>
      obtain ⟨-, hrun⟩ := Option.ite_none_left_eq_some.mp hnext
      obtain ⟨u, hu, hinv⟩ := h.freeMag hpos hmax hpc
      rw [hu] at hrun
      cases hrun
      exact hinv
    · cases hnext
  | giveBack k =>
    obtain ⟨p, hp, rfl⟩ := Option.map_eq_some_iff.mp hnext
    exact h.giveBack (List.mem_of_find?_eq_some hp)
  | node a =>
    obtain ⟨ha, hrun⟩ := Option.ite_none_right_eq_some.mp hnext
    obtain ⟨node, hnode, rfl⟩ := Option.map_eq_some_iff.mp hrun
    refine ⟨h.cache, h.node.step trivial hnode, ?_⟩
    cases a with
    | alloc fresh | free item => cases ha
    | write x v | foreign pg next count linkNext linkPrev =>
      obtain ⟨-, rfl⟩ := guarded hnode
      exact h.items

end Steps

/-- In every run of a cache over a slab, with any number of threads and page
allocations that succeed or fail: the cache and the slab each run as they would
alone, so that the magazines the cache gets are made of items nobody has and the
slab gets back only what it gave out. An item that is allocated from the slab is
with the cache or on its way back, so that no call keeps one. Users never have
overlapping items, and no step of the cache or the slab fails an assertion. -/
theorem slab_cache_sound [Fintype κ] {n : SlabNode} {magSize : Nat}
    {s : SlabCache κ} (hpos : 1 ≤ magSize) (hmax : magSize ≤ tcacheMaxMagSize)
    (hmany : slabPartialThresh < n.nrElems) (hfit : n.Fits)
    (hs : (slabCacheSystem κ n magSize).Reach anyStep s) :
    (tcacheSystem κ Nat magSize).Reach anyStep s.cache ∧
    (slabSystem n).Reach anyStep s.node ∧
    s.node.live.Nodup ∧
    s.node.live.Perm (s.cache.out ++ s.returning.map Prod.snd) ∧
    (∀ a ∈ s.cache.user, a ∈ s.node.live ∧ ∀ b ∈ s.cache.user, a ≠ b →
      a + n.size ≤ b ∨ b + n.size ≤ a) ∧
    (∀ a r, tcStep s.cache a = some r → ∃ t, r = .ok t) ∧
    (∀ fresh, s.node.pageFree fresh →
      ∃ r, slabNodeAlloc n s.node fresh = .ok r) ∧
    ∀ k hdr, s.cache.pc k = .reclaiming hdr →
      ∃ t, slabTcacheFree s k hdr = .ok t := by
  have h : SlabCacheInv n magSize s := by
    apply hs.invariant
    · rintro s ⟨hcache, hnode, hnone⟩
      refine ⟨.init hcache, .init hnode, ?_⟩
      rw [hnode.2.2.2.2.2, hcache.2.2.2.2.2.1, hnone]
      exact .refl _
    · exact fun s a t hinv _ hnext => hinv.next hmany hfit hpos hmax hnext
  obtain ⟨⟨f, hcache⟩, hcount, rfl⟩ := tcInv_reach hpos hmax h.cache
  have hlive : ∀ a ∈ s.cache.user, a ∈ s.node.live := by
    intro a ha
    rw [← hcache.user] at ha
    exact h.items.mem_iff.mpr
      (List.mem_append_left _ (hcache.spread.mem_out ha))
  obtain ⟨⟨full, part, free, hpages, -⟩, -⟩ :=
    slabInv_reach hmany (.inl hfit) h.node
  refine ⟨h.cache, h.node, hpages.live_nodup, h.items,
    fun a ha => ⟨hlive a ha, fun b hb hne => ?_⟩, fun a r hr => ?_,
    fun fresh hfresh => ?_, fun k hdr hpc => ?_⟩
  · obtain ⟨j, hj, hplace⟩ := hpages.live_place (hlive a ha)
    obtain ⟨k, hk, hplace'⟩ := hpages.live_place (hlive b hb)
    rw [← hplace, ← hplace'] at hne ⊢
    exact itemAddr_apart (.inr ⟨hfit, hj, hk⟩) hne
  · obtain ⟨t, answer, hok, -⟩ := tcStep_ok hcache hcount hpos hmax hr
    exact ⟨_, hok⟩
  · obtain ⟨t, r, hrun, -⟩ := slab_alloc_reach hmany hfit h.node hfresh
    exact ⟨_, hrun⟩
  · obtain ⟨t, ht, -⟩ := h.freeMag hpos hmax hpc
    exact ⟨t, ht⟩

def emptySlabCache : SlabCache Bool where
  cache :=
    { magSize := 3, magsAllocated := 0, sharedMags := none
      nextItem := fun _ => none, nextMag := fun _ => none
      ltc := fun _ => tcacheInitPerthread 3, pc := fun _ => .idle
      user := [], out := [], taken := 0, given := 0 }
  node := emptySlab
  returning := []

/-- Two magazines come off one page. For a third one it has two items left, and
there is no second page. -/
def slabCacheRun : List (SlabCacheAct Bool) :=
  [.cache (.alloc false), .fetch false [some 1, none, none],
    .cache (.load false), .cache (.alloc false), .cache (.alloc false),
    .cache (.alloc true), .fetch true [none, none, none], .cache (.load true),
    .cache (.alloc false), .fetch false [none, none, none], .giveBack false]

theorem slabCacheRun_isSome :
    ((slabCacheSystem Bool eightItems 3).exec emptySlabCache
      slabCacheRun).isSome = true := by
  with_unfolding_all decide

/-- One of the two items is back, the other one is on its way. -/
theorem slab_cache_sound_failed :
    let s := ((slabCacheSystem Bool eightItems 3).exec emptySlabCache
      slabCacheRun).get slabCacheRun_isSome
    s.cache.user.length = 4 ∧ s.returning.length = 1 ∧
      s.node.live.Perm (s.cache.out ++ s.returning.map Prod.snd) := by
  have hinit : (slabCacheSystem Bool eightItems 3).init emptySlabCache :=
    ⟨⟨rfl, rfl, rfl, fun _ => ⟨rfl, rfl⟩, rfl, rfl, rfl, rfl⟩,
      ⟨rfl, rfl, rfl, ⟨_, rfl⟩, fun _ => rfl, rfl⟩, rfl⟩
  have hreach := System.Reach.exec (.init hinit) slabCacheRun
    (Option.some_get slabCacheRun_isSome).symm
  have hfit : eightItems.Fits := Nat.le_refl 4096
  refine ⟨?_, ?_, (slab_cache_sound (by decide) (by decide) (by decide) hfit
    hreach).2.2.2.1⟩
  · with_unfolding_all decide
  · with_unfolding_all decide

end Libut.Base
