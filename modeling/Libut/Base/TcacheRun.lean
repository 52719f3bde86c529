import Libut.Base.TcacheInv
import Libut.Machine.Total

/-!
Runs of the thread-local cache. `mags_allocated` counts the magazines that are
out of the backing store, up to those in calls that have taken or returned one
and not yet updated the counter.
-/

namespace Libut.Base

open Machine

variable {κ α : Type} [DecidableEq κ]

section Count

variable [Fintype κ] {s t : TcacheState κ α} {k : κ}

structure CountInv (s : TcacheState κ α) : Prop where
  store : s.taken = s.given + s.out.length
  mags : (s.magsAllocated + ∑ k, (s.pc k).uncounted) * s.magSize =
    s.out.length

omit [DecidableEq κ] in
theorem CountInv.same (h : CountInv s) (hst : SameStore s t) : CountInv t := by
  constructor
  · rw [hst.taken, hst.given, hst.out]
    exact h.store
  · have hsum : ∑ j, (t.pc j).uncounted = ∑ j, (s.pc j).uncounted :=
      Finset.sum_congr rfl fun j _ => hst.uncounted j
    rw [hst.mags, hst.size, hst.out, hsum]
    exact h.mags

/-- A step that takes `d` more magazines than it gives. Whether it is counted
at once or not shows in the counter or in where the call is. -/
theorem CountInv.change {d : Int} {pc : TcPc α} (h : CountInv s)
    (hsize : t.magSize = s.magSize) (hstore : t.taken = t.given + t.out.length)
    (hout : (t.out.length : Int) = s.out.length + d * s.magSize)
    (hpc : t.pc = Function.update s.pc k pc)
    (hmags : t.magsAllocated + pc.uncounted =
      s.magsAllocated + (s.pc k).uncounted + d) : CountInv t := by
  refine ⟨hstore, ?_⟩
  have hsum : ∑ j, (t.pc j).uncounted + (s.pc k).uncounted =
      ∑ j, (s.pc j).uncounted + pc.uncounted := by
    apply sum_change_one (k := k)
    · intro j hjk
      rw [hpc, Function.update_of_ne hjk]
    · rw [hpc, Function.update_self, add_comm]
  have htotal : t.magsAllocated + ∑ j, (t.pc j).uncounted =
      s.magsAllocated + ∑ j, (s.pc j).uncounted + d := by omega
  rw [hsize, htotal, hout, add_mul, h.mags]

theorem length_filter_not_mem [DecidableEq α] {out items : List α}
    (hout : out.Nodup) (hitems : items.Nodup) (hmem : ∀ x ∈ items, x ∈ out) :
    (out.filter (· ∉ items)).length + items.length = out.length := by
  have hperm : items.Perm (out.filter (· ∈ items)) := by
    rw [List.perm_ext_iff_of_nodup hitems (hout.filter _)]
    intro x
    rw [List.mem_filter, decide_eq_true_eq]
    exact ⟨fun hx => ⟨hmem x hx, hx⟩, fun hx => hx.2⟩
  have hsplit := (List.filter_append_perm (· ∈ items) out).length_eq
  rw [List.length_append] at hsplit
  rw [hperm.length_eq, Nat.add_comm]
  simpa using hsplit

end Count

section Run

variable [DecidableEq α] [Fintype κ] {s : TcacheState κ α}
  {f : TcPlace κ → List α}

structure TcStepOk (s : TcacheState κ α) (a : TcAct κ α)
    (t : TcacheState κ α) (answer : TcAnswer α) : Prop where
  inv : ∃ g, TcInv t g
  count : CountInv t
  size : t.magSize = s.magSize
  null : answer = some none → ∃ k, a = .fetch k none

omit [DecidableEq α] in
theorem fetch_ok {k : κ} {items : Option (List α)} (h : TcInv s f)
    (hcount : CountInv s) (hpc : s.pc k = .needMag) (hstore : s.storeOk items) :
    TcStepOk s (.fetch k items) (tcacheFetch s k items).1
      (tcacheFetch s k items).2 := by
  cases items with
  | none =>
    have hcall := (h.handle k).call
    rw [hpc] at hcall
    refine ⟨⟨f, h.setPc hcall.2⟩, hcount.same ⟨rfl, rfl, rfl, rfl, rfl, ?_⟩,
      rfl, fun _ => ⟨k, rfl⟩⟩
    apply setPc_uncounted
    rw [hpc]
    rfl
  | some items =>
    have hlength := (hstore items rfl).1
    refine ⟨⟨_, h.fetch hpc hstore⟩, ?_, rfl, nofun⟩
    have hstore := hcount.store
    refine hcount.change (d := 1) rfl ?_ ?_ rfl ?_
    · change s.taken + items.length = s.given + (items ++ s.out).length
      rw [List.length_append]
      omega
    · change ((items ++ s.out).length : Int) = _
      rw [List.length_append, hlength]
      omega
    · rw [hpc]
      change s.magsAllocated + 1 = s.magsAllocated + 0 + 1
      omega

theorem load_ok {k : κ} {items : List α} (h : TcInv s f) (hcount : CountInv s)
    (hpos : 0 < s.magSize) (hpc : s.pc k = .linking items) :
    ∃ t answer, tcacheLoad s k items = .ok (t, answer) ∧
      TcStepOk s (.load k) t answer := by
  obtain ⟨t, item, hrun, hinv, -, hsize, hout, htaken, hgiven, hmags, hpcs⟩ :=
    tcacheLoad_ok h hpos hpc
  refine ⟨t, _, hrun, hinv, ?_, hsize, nofun⟩
  have hstore := hcount.store
  refine hcount.change (d := 0) hsize ?_ ?_ hpcs ?_
  · rw [htaken, hgiven, hout]
    exact hstore
  · rw [hout]
    omega
  · rw [hmags, hpc]
    change s.magsAllocated + 1 + 0 = s.magsAllocated + 1 + 0
    rfl

theorem freeMag_ok {k : κ} {hdr : α} (h : TcInv s f) (hcount : CountInv s)
    (hmax : s.magSize ≤ tcacheMaxMagSize) (hpc : s.pc k = .reclaiming hdr) :
    ∃ t, tcacheFreeMag s k hdr = .ok t ∧
      TcStepOk s (.freeMag k) t none := by
  obtain ⟨items, hrun, hlength, hnodup, hmem, hinv⟩ :=
    tcacheFreeMag_ok h hmax hpc
  refine ⟨_, hrun, hinv, ?_, rfl, nofun⟩
  have hsplit := length_filter_not_mem h.distinct hnodup hmem
  have hstore := hcount.store
  refine hcount.change (d := -1) rfl ?_ ?_ rfl ?_
  · change s.taken = s.given + items.length + (s.out.filter (· ∉ items)).length
    omega
  · change ((s.out.filter (· ∉ items)).length : Int) = _
    rw [← hsplit, hlength]
    push_cast
    ring
  · rw [hpc]
    change s.magsAllocated + -1 = s.magsAllocated + 0 + -1
    omega

omit [DecidableEq α] in
theorem uncount_ok {k : κ} {next : Option α} (h : TcInv s f)
    (hcount : CountInv s) (hpc : s.pc k = .returned next) :
    TcStepOk s (.uncount k) (tcacheUncount s k next) none := by
  refine ⟨⟨f, h.uncount hpc⟩, ?_, rfl, nofun⟩
  have huncounted : (reclaimAt next).uncounted = 0 := by
    cases next <;> rfl
  refine hcount.change (d := 0) rfl hcount.store ?_ rfl ?_
  · change (s.out.length : Int) = _
    omega
  · rw [huncounted, hpc]
    change s.magsAllocated - 1 + 0 = s.magsAllocated + -1 + 0
    omega

omit [DecidableEq α] in
theorem reclaim_ok {k : κ} (h : TcInv s f) (hcount : CountInv s)
    (hpc : s.pc k = .idle) :
    TcStepOk s (.reclaim k) (tcacheReclaim s k) none := by
  refine ⟨⟨_, h.reclaim hpc⟩, hcount.same ⟨rfl, rfl, rfl, rfl, rfl, ?_⟩, rfl,
    nofun⟩
  have huncounted : (reclaimAt s.sharedMags).uncounted = (s.pc k).uncounted := by
    rw [hpc]
    cases s.sharedMags <;> rfl
  exact setPc_uncounted (s := { s with sharedMags := none }) huncounted

/-- No step runs into a null pointer, a failed assertion or the end of the
array of items. -/
theorem tcStep_ok {a : TcAct κ α} {r} (h : TcInv s f) (hcount : CountInv s)
    (hpos : 0 < s.magSize) (hmax : s.magSize ≤ tcacheMaxMagSize)
    (hr : tcStep s a = some r) :
    ∃ t answer, r = .ok (t, answer) ∧ TcStepOk s a t answer := by
  cases a with
  | alloc k =>
    obtain ⟨hpc, rfl⟩ := guarded hr
    obtain ⟨t, answer, hrun, halloc⟩ := tcacheAlloc_ok h hpc
    exact ⟨t, answer, hrun, halloc.inv, hcount.same halloc.store,
      halloc.store.size, fun hnull => absurd hnull halloc.notNull⟩
  | fetch k items =>
    obtain ⟨hpc, rfl⟩ := guarded hr
    exact ⟨_, _, rfl, fetch_ok h hcount hpc.1 hpc.2⟩
  | load k =>
    simp only [tcStep] at hr
    split at hr
    · next items hpc =>
      cases hr
      exact load_ok h hcount hpos hpc
    · cases hr
  | free k item =>
    obtain ⟨hpc, rfl⟩ := guarded hr
    obtain ⟨t, hrun, hinv, hstore, -⟩ := tcacheFree_ok h hpos hpc.2 hpc.1
    refine ⟨t, none, ?_, hinv, hcount.same hstore, hstore.size, nofun⟩
    rw [hrun]
    rfl
  | reclaim k =>
    obtain ⟨hpc, rfl⟩ := guarded hr
    exact ⟨_, _, rfl, reclaim_ok h hcount hpc⟩
  | freeMag k =>
    simp only [tcStep] at hr
    split at hr
    · next hdr hpc =>
      cases hr
      obtain ⟨t, hrun, hok⟩ := freeMag_ok h hcount hmax hpc
      refine ⟨t, none, ?_, hok⟩
      rw [hrun]
      rfl
    · cases hr
  | uncount k =>
    simp only [tcStep] at hr
    split at hr
    · next next hpc =>
      cases hr
      exact ⟨_, _, rfl, uncount_ok h hcount hpc⟩
    · cases hr
  | write x v w =>
    obtain ⟨hx, rfl⟩ := guarded hr
    exact ⟨_, _, rfl, ⟨f, h.write hx⟩,
      hcount.same ⟨rfl, rfl, rfl, rfl, rfl, fun _ => rfl⟩, rfl, nofun⟩

/-- The items and the counter of a cache in one state, and what its next step
does. -/
structure TcacheSound (s : TcacheState κ α) (f : TcPlace κ → List α) : Prop where
  /-- Every item that was taken and not returned is at one place, once. -/
  place : ∀ x ∈ s.out, ∃! p, x ∈ f p
  taken : ∀ p, (f p).Nodup ∧ ∀ x ∈ f p, x ∈ s.out
  user : f .user = s.user
  loaded : ∀ k, Chain s.nextItem (s.ltc k).loaded (f (.loaded k)) ∧
    (f (.loaded k)).length = (s.ltc k).rounds ∧
    (s.ltc k).rounds ≤ (s.ltc k).capacity ∧
    ((s.ltc k).rounds = 0 → (s.ltc k).loaded = none)
  previous : ∀ k, Chain s.nextItem (s.ltc k).previous (f (.previous k)) ∧
    ((s.ltc k).previous = none ∨ (f (.previous k)).length = (s.ltc k).capacity)
  shared : ∃ ms, Mags s.magSize s.nextItem s.nextMag s.sharedMags ms ∧
    f .shared = ms.flatMap magItems
  /-- A thread that is in no call has no other items. -/
  inCall : ∀ k, s.pc k = .idle → f (.inCall k) = []
  count : (s.magsAllocated + ∑ k, (s.pc k).uncounted) * s.magSize =
    s.taken - s.given
  settled : (∀ k, s.pc k = .idle) →
    s.magsAllocated * s.magSize = s.taken - s.given
  /-- No step fails, and `tcache_alloc` returns NULL in the step in which the
  backing store fails and in no other. -/
  step : ∀ a r, tcStep s a = some r → ∃ t answer, r = .ok (t, answer) ∧
    (answer = some none → ∃ k, a = .fetch k none)

omit [DecidableEq κ] [DecidableEq α] in
theorem TcInv.start {magSize : Nat} (h : tcacheStart magSize s) :
    TcInv s (fun _ => []) ∧ CountInv s := by
  obtain ⟨hsize, hmags, hshared, hthreads, huser, hout, htaken, hgiven⟩ := h
  refine ⟨⟨⟨fun _ => .nil, nofun, fun x => ?_⟩, ?_, huser.symm, fun k => ?_,
    [], ?_, rfl⟩, ?_, ?_⟩
  · rw [hout]
    exact iff_of_false List.not_mem_nil fun ⟨_, hx⟩ => List.not_mem_nil hx
  · rw [hout]
    exact .nil
  · obtain ⟨hltc, hpc⟩ := hthreads k
    constructor
    · rw [hltc, hsize]
      rfl
    · rw [hltc]
      exact .nil
    · rw [hltc]
      rfl
    · rw [hltc]
      exact Nat.zero_le _
    · rw [hltc]
      exact .nil
    · exact .inl rfl
    · rw [hpc]
      rfl
  · rw [hshared]
    exact .empty
  · rw [htaken, hgiven, hout]
    rfl
  · have hsum : ∑ k, (s.pc k).uncounted = 0 :=
      Finset.sum_eq_zero fun k _ => by rw [(hthreads k).2]; rfl
    rw [hmags, hsum, hout]
    simp

theorem tcInv_reach {magSize : Nat} (hpos : 1 ≤ magSize)
    (hmax : magSize ≤ tcacheMaxMagSize)
    (hs : (tcacheSystem κ α magSize).Reach anyStep s) :
    (∃ f, TcInv s f) ∧ CountInv s ∧ s.magSize = magSize := by
  apply hs.invariant
  · intro s hinit
    exact ⟨⟨_, (TcInv.start hinit).1⟩, (TcInv.start hinit).2, hinit.1⟩
  · rintro s a t ⟨⟨f, hinv⟩, hcount, rfl⟩ _ hnext
    simp only [tcacheSystem] at hnext
    split at hnext
    · next u answer hr =>
      cases hnext
      obtain ⟨t, answer', hok, hstep⟩ := tcStep_ok hinv hcount hpos hmax hr
      cases hok
      exact ⟨hstep.inv, hstep.count, hstep.size⟩
    · cases hnext

/-- In every state of every run, for every number of threads: each item that was
taken from the backing store and not returned is at one place, the magazines are
as full as they should be, and the counter agrees with what was taken and
returned. Items with a thread that is inside a call are shown as such. -/
theorem tcache_conservation {magSize : Nat} (hpos : 1 ≤ magSize)
    (hmax : magSize ≤ tcacheMaxMagSize)
    (hs : (tcacheSystem κ α magSize).Reach anyStep s) :
    ∃ f, TcacheSound s f := by
  obtain ⟨⟨f, hinv⟩, hcount, rfl⟩ := tcInv_reach hpos hmax hs
  have hstore := hcount.store
  have htotal := hcount.mags
  have hlength : (s.out.length : Int) = s.taken - s.given := by omega
  refine ⟨f, fun x hx => hinv.spread.unique hx, fun p => ⟨hinv.spread.nodup p,
    fun x hx => hinv.spread.mem_out hx⟩, hinv.user, fun k => ?_, fun k => ?_,
    hinv.shared, fun k hpc => ?_, htotal.trans hlength, fun hidle => ?_,
    fun a r hr => ?_⟩
  · have hk := hinv.handle k
    refine ⟨hk.loaded, hk.rounds, hk.capacity ▸ hk.bound, fun hrounds => ?_⟩
    have hchain := hk.loaded
    rw [hk.loaded_nil hrounds] at hchain
    exact hchain
  · have hk := hinv.handle k
    refine ⟨hk.previous, ?_⟩
    rw [hk.capacity]
    apply hk.full.imp_left
    intro hnil
    have hchain := hk.previous
    rw [hnil] at hchain
    exact hchain
  · have hcall := (hinv.handle k).call
    rw [hpc] at hcall
    exact hcall
  · have hsum : ∑ k, (s.pc k).uncounted = 0 :=
      Finset.sum_eq_zero fun k _ => by rw [hidle k]; rfl
    rw [hsum, add_zero] at htotal
    exact htotal.trans hlength
  · obtain ⟨t, answer, hok, hstep⟩ := tcStep_ok hinv hcount hpos hmax hr
    exact ⟨t, answer, hok, hstep.null⟩

end Run

def emptyTcache : TcacheState Bool Nat where
  magSize := 2
  magsAllocated := 0
  sharedMags := none
  nextItem _ := some 0
  nextMag _ := some 0
  ltc _ := tcacheInitPerthread 2
  pc _ := .idle
  user := []
  out := []
  taken := 0
  given := 0

/-- One thread takes three magazines, the other frees most of the items, and the
magazine that it puts into the pool is reclaimed. -/
def tcacheRun : List (TcAct Bool Nat) :=
  [.alloc false, .fetch false (some [0, 1]), .load false, .alloc false,
    .alloc false, .fetch false (some [2, 3]), .load false, .alloc false,
    .alloc false, .fetch false (some [4, 5]), .load false, .alloc false,
    .free true 0, .free true 1, .free true 2, .free true 3, .free true 4,
    .reclaim false, .freeMag false, .uncount false, .alloc false,
    .fetch false none]

theorem tcacheRun_isSome :
    ((tcacheSystem Bool Nat 2).exec emptyTcache tcacheRun).isSome =
      true := by
  with_unfolding_all decide

/-- Two magazines are left, with one item in use. -/
theorem tcache_conservation_reclaimed :
    let s := ((tcacheSystem Bool Nat 2).exec emptyTcache tcacheRun).get
      tcacheRun_isSome
    s.magsAllocated = 2 ∧ s.user = [5] ∧ ∃ f, TcacheSound s f := by
  have hinit : (tcacheSystem Bool Nat 2).init emptyTcache :=
    ⟨rfl, rfl, rfl, fun _ => ⟨rfl, rfl⟩, rfl, rfl, rfl, rfl⟩
  have hreach := System.Reach.exec (.init hinit) tcacheRun
    (Option.some_get tcacheRun_isSome).symm
  refine ⟨?_, ?_, tcache_conservation (by decide) (by decide) hreach⟩
  · with_unfolding_all decide
  · with_unfolding_all decide

end Libut.Base
