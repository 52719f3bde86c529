import Libut.Base.ListHead

/-!
The lists of threads that `runtime/sync.c` keeps: the list of an object and,
while a thread wakes others, the list `tmp` on its stack to which it has moved
them. All of these go through the one `link` that each thread has, so that a
thread can be on one of them at a time only. A thread on none of them may use
its `link` for something else, such as the overflow list of a kthread.
-/

namespace Libut.Runtime

open Function Machine Base

/-- The `list_head` of the object, the `list_head tmp` on the stack of each
thread and the `link` of each thread. -/
inductive SyncNode (τ : Type)
  | waiters
  | tmp (th : τ)
  | link (th : τ)
  deriving DecidableEq

variable {τ : Type}

/-- The lists with threads `ws` on the object's list and, for the threads that
are waking others, what is left on `tmp`. -/
def waitLists (ws : List τ) (ts : τ → Option (List τ)) :
    SyncNode τ → Option (List (SyncNode τ))
  | .waiters => some (ws.map .link)
  | .tmp r => (ts r).map (List.map .link)
  | .link _ => none

def WaitQueues (L : Links (SyncNode τ)) (ws : List τ)
    (ts : τ → Option (List τ)) : Prop :=
  Lists L (waitLists ws ts)

def OffQueues (ws : List τ) (ts : τ → Option (List τ)) (th : τ) : Prop :=
  th ∉ ws ∧ ∀ r rest, ts r = some rest → th ∉ rest

section Lookup

variable {ws : List τ} {ts : τ → Option (List τ)} {th : τ}

theorem waitLists_tmp {r : τ} {rest : List τ} (hr : ts r = some rest) :
    waitLists ws ts (.tmp r) = some (rest.map .link) := by
  rw [waitLists, hr, Option.map_some]

theorem mem_map_link {xs : List τ} :
    SyncNode.link th ∈ xs.map SyncNode.link ↔ th ∈ xs := by
  constructor
  · intro hmem
    obtain ⟨u, hu, heq⟩ := List.mem_map.mp hmem
    exact SyncNode.link.inj heq ▸ hu
  · exact fun hmem => List.mem_map.mpr ⟨th, hmem, rfl⟩

theorem waitLists_cases {h : SyncNode τ} {xs : List (SyncNode τ)}
    (hxs : waitLists ws ts h = some xs) :
    h = .waiters ∧ xs = ws.map .link ∨
      ∃ r rest, h = .tmp r ∧ ts r = some rest ∧ xs = rest.map .link := by
  cases h with
  | waiters =>
    cases hxs
    exact .inl ⟨rfl, rfl⟩
  | tmp r =>
    obtain ⟨rest, hrest, rfl⟩ := Option.map_eq_some_iff.mp hxs
    exact .inr ⟨r, rest, rfl, hrest, rfl⟩
  | link th => cases hxs

theorem OffQueues.unlisted (h : OffQueues ws ts th) :
    Unlisted (waitLists ws ts) (.link th) := by
  intro head xs hxs hmem
  rcases waitLists_cases hxs with ⟨rfl, rfl⟩ | ⟨r, rest, rfl, hrest, rfl⟩
  · rcases List.mem_cons.mp hmem with heq | hmem
    · cases heq
    · exact h.1 (mem_map_link.mp hmem)
  · rcases List.mem_cons.mp hmem with heq | hmem
    · cases heq
    · exact h.2 r rest hrest (mem_map_link.mp hmem)

theorem tmp_unlisted (hth : ts th = none) :
    Unlisted (waitLists ws ts) (.tmp th) := by
  intro head xs hxs hmem
  rcases waitLists_cases hxs with ⟨rfl, rfl⟩ | ⟨r, rest, rfl, hrest, rfl⟩
  · simp at hmem
  · rcases List.mem_cons.mp hmem with heq | hmem
    · cases heq
      rw [hth] at hrest
      cases hrest
    · simp at hmem

end Lookup

variable [DecidableEq τ]

section Updates

variable {ws : List τ} {ts : τ → Option (List τ)} {r : τ}

theorem waitLists_waiters (ws' : List τ) :
    update (waitLists ws ts) .waiters (some (ws'.map .link)) =
      waitLists ws' ts := by
  funext h
  cases h with
  | waiters => exact update_self ..
  | tmp r | link th => exact update_of_ne (by simp) ..

theorem waitLists_update (rest : Option (List τ)) :
    update (waitLists ws ts) (.tmp r) (rest.map (List.map .link)) =
      waitLists ws (update ts r rest) := by
  funext h
  cases h with
  | waiters | link th => exact update_of_ne (by simp) ..
  | tmp r' =>
    rcases eq_or_ne r' r with rfl | hne
    · rw [update_self, waitLists, update_self]
    · have hne' : SyncNode.tmp r' ≠ SyncNode.tmp r :=
        fun heq => hne (SyncNode.tmp.inj heq)
      rw [update_of_ne hne', waitLists, waitLists, update_of_ne hne]

end Updates

/-- `list_head_init(&tmp)` and `list_append_list(&tmp, &waiters)`. -/
def takeWaiters (L : Links (SyncNode τ)) (th : τ) : Links (SyncNode τ) :=
  listAppendList (listHeadInit L (.tmp th)) (.tmp th) .waiters

section Queues

variable {L : Links (SyncNode τ)} {ws : List τ} {ts : τ → Option (List τ)}
  {th r : τ}

omit [DecidableEq τ] in
theorem WaitQueues.congr {ws' : List τ} {ts' : τ → Option (List τ)}
    (h : WaitQueues L ws ts) (hws : ws' = ws) (hts : ∀ r, ts' r = ts r) :
    WaitQueues L ws' ts' := by
  obtain rfl := hws
  obtain rfl : ts' = ts := funext hts
  exact h

theorem WaitQueues.init (L : Links (SyncNode τ)) :
    WaitQueues (listHeadInit L .waiters) ([] : List τ) fun _ => none := by
  have hinit := listHeadInit_lists (.empty L) (.empty (.waiters (τ := τ)))
  have heq : update
      (fun _ : SyncNode τ => (none : Option (List (SyncNode τ)))) .waiters
        (some []) = waitLists [] fun _ => none := by
    funext h
    cases h with
    | waiters => exact update_self ..
    | tmp r | link th => exact update_of_ne (by simp) ..
  rw [heq] at hinit
  exact hinit

section

variable (h : WaitQueues L ws ts)
include h

theorem WaitQueues.scribble (hth : OffQueues ws ts th) (a b : SyncNode τ) :
    WaitQueues (storePrev (storeNext L (.link th) a) (.link th) b) ws ts :=
  scribble_lists h hth.unlisted a b

theorem WaitQueues.enqueue (hth : OffQueues ws ts th) :
    WaitQueues (listAddTail L .waiters (.link th)) (ws ++ [th]) ts := by
  have hadd := listAddTail_lists h (h := .waiters) rfl hth.unlisted
  rw [← List.map_singleton, ← List.map_append, waitLists_waiters] at hadd
  exact hadd

theorem WaitQueues.enter (hr : ts r = none) :
    WaitQueues (listHeadInit L (.tmp r)) ws
      (update ts r (some [])) := by
  have hinit := listHeadInit_lists h (tmp_unlisted hr)
  have hempty : update (waitLists ws ts) (.tmp r) (some []) =
      waitLists ws (update ts r (some [])) :=
    waitLists_update (some [])
  rw [hempty] at hinit
  exact hinit

theorem WaitQueues.take (hr : ts r = none) :
    WaitQueues (takeWaiters L r) [] (update ts r (some ws)) := by
  have hne : SyncNode.tmp r ≠ .waiters := by simp
  have happend := listAppendList_lists (h.enter hr) hne
    (waitLists_tmp (update_self ..)) rfl
  have htaken : update
      (waitLists ws (update ts r (some []))) (.tmp r)
        (some (([] : List τ).map .link ++ ws.map .link)) =
      waitLists ws (update ts r (some ws)) := by
    have hupdate : update ts r (some ws) =
        update (update ts r (some [])) r (some ws) :=
      (update_idem ..).symm
    rw [hupdate]
    exact waitLists_update (some ws)
  rw [htaken] at happend
  have hwaiters : update
      (waitLists ws (update ts r (some ws))) .waiters (some []) =
      waitLists [] (update ts r (some ws)) := waitLists_waiters []
  rw [hwaiters] at happend
  exact happend

theorem WaitQueues.pop_nil (hr : ts r = some []) :
    listPop L (.tmp r) = (L, none) :=
  listPop_nil h (waitLists_tmp hr)

theorem WaitQueues.pop_cons {u : τ} {rest : List τ} (hr : ts r = some (u :: rest)) :
    ∃ L', listPop L (.tmp r) = (L', some (.link u)) ∧
      WaitQueues L' ws (update ts r (some rest)) := by
  obtain ⟨hpop, hlists⟩ := listPop_cons h (waitLists_tmp hr)
  refine ⟨_, hpop, ?_⟩
  have hrest : update (waitLists ws ts) (.tmp r)
      (some (rest.map .link)) = waitLists ws (update ts r (some rest)) :=
    waitLists_update (some rest)
  rw [hrest] at hlists
  exact hlists

theorem WaitQueues.pop_none {rest : List τ} (hr : ts r = some rest)
    (hpop : (listPop L (.tmp r)).2 = none) :
    rest = [] ∧ (listPop L (.tmp r)).1 = L := by
  cases rest with
  | nil => exact ⟨rfl, by rw [h.pop_nil hr]⟩
  | cons u rest =>
    obtain ⟨L', hcons, _⟩ := h.pop_cons hr
    rw [hcons] at hpop
    cases hpop

theorem WaitQueues.pop_some {u : τ} {rest : List τ} (hr : ts r = some rest)
    (hpop : (listPop L (.tmp r)).2 = some (.link u)) :
    ∃ rest', rest = u :: rest' ∧
      WaitQueues (listPop L (.tmp r)).1 ws
        (update ts r (some rest')) := by
  cases rest with
  | nil =>
    rw [h.pop_nil hr] at hpop
    cases hpop
  | cons u' rest =>
    obtain ⟨L', hcons, hqueues⟩ := h.pop_cons hr
    rw [hcons] at hpop ⊢
    cases hpop
    exact ⟨rest, rfl, hqueues⟩

theorem WaitQueues.leave (r : τ) : WaitQueues L ws (update ts r none) := by
  have hforget := Lists.forget h (.tmp r)
  have hnone : update (waitLists ws ts) (.tmp r) none =
      waitLists ws (update ts r none) := waitLists_update none
  rw [hnone] at hforget
  exact hforget

end

section

omit [DecidableEq τ]

section

variable (h : WaitQueues L ws ts)
include h

theorem WaitQueues.empty_iff [DecidableEq τ] :
    listEmpty L .waiters = true ↔ ws = [] := by
  rw [listEmpty_iff h rfl, List.map_eq_nil_iff]

theorem WaitQueues.nodup : ws.Nodup := by
  have hnodup := (h.listed .waiters _ rfl).nodup
  exact (List.nodup_cons.mp hnodup).2.of_map

theorem WaitQueues.tmp_nodup {rest : List τ} (hr : ts r = some rest) :
    rest.Nodup := by
  have hnodup := (h.listed (.tmp r) _ (waitLists_tmp hr)).nodup
  exact (List.nodup_cons.mp hnodup).2.of_map

theorem WaitQueues.not_mem_waiters {rest : List τ} (hr : ts r = some rest)
    (hth : th ∈ rest) : th ∉ ws := by
  intro hws
  have happart := h.apart (.tmp r) .waiters _ _ (by simp) (waitLists_tmp hr) rfl
  exact happart (List.mem_cons_of_mem _ (mem_map_link.mpr hth))
    (List.mem_cons_of_mem _ (mem_map_link.mpr hws))

theorem WaitQueues.not_mem_tmp {r' : τ} {rest rest' : List τ} (hne : r ≠ r')
    (hr : ts r = some rest) (hr' : ts r' = some rest') (hth : th ∈ rest) :
    th ∉ rest' := by
  intro hth'
  have hnode : SyncNode.tmp r ≠ .tmp r' :=
    fun heq => hne (SyncNode.tmp.inj heq)
  have happart := h.apart (.tmp r) (.tmp r') _ _ hnode (waitLists_tmp hr)
    (waitLists_tmp hr')
  exact happart (List.mem_cons_of_mem _ (mem_map_link.mpr hth))
    (List.mem_cons_of_mem _ (mem_map_link.mpr hth'))

end

end

end Queues

end Libut.Runtime
