import Libut.Base.Tcache
import Libut.Machine.Places

/-!
Where the items of a thread-local cache are. That the magazine behind the
loaded one and those of the pool are full is recorded nowhere; it holds because
a magazine gets there only when it is, or comes from the backing store.
-/

namespace Libut.Base

open Function Machine

inductive TcPlace (κ : Type)
  | user
  | loaded (k : κ)
  | previous (k : κ)
  | shared
  /-- In a call of `tcache_alloc_mag` or `tcache_reclaim`. -/
  | inCall (k : κ)
  deriving DecidableEq

variable {κ α : Type}

def TcPlace.handle : TcPlace κ → Option κ
  | .user => none
  | .loaded k => some k
  | .previous k => some k
  | .shared => none
  | .inCall k => some k

def magItems (m : α × List α) : List α := m.1 :: m.2

structure Mags (size : Nat) (nextItem nextMag : α → Option α) (p : Option α)
    (ms : List (α × List α)) : Prop where
  stack : Chain nextMag p (ms.map Prod.fst)
  full : ∀ m ∈ ms, Chain nextItem (some m.1) (magItems m) ∧
    (magItems m).length = size

section Mags

variable {size : Nat} {nextItem nextMag nextItem' nextMag' : α → Option α}
  {p : Option α} {ms : List (α × List α)} {a : α} {rest : List α}

theorem Mags.empty : Mags size nextItem nextMag none [] :=
  ⟨.nil, nofun⟩

theorem Mags.congr (h : Mags size nextItem nextMag p ms)
    (hsame : ∀ x ∈ ms.flatMap magItems,
      nextItem' x = nextItem x ∧ nextMag' x = nextMag x) :
    Mags size nextItem' nextMag' p ms := by
  constructor
  · apply h.stack.congr
    intro x hx
    obtain ⟨m, hm, rfl⟩ := List.mem_map.mp hx
    exact (hsame m.1 (List.mem_flatMap.mpr ⟨m, hm, List.mem_cons_self⟩)).2
  · intro m hm
    refine ⟨(h.full m hm).1.congr fun x hx => ?_, (h.full m hm).2⟩
    exact (hsame x (List.mem_flatMap.mpr ⟨m, hm, hx⟩)).1

theorem Mags.pop (h : Mags size nextItem nextMag (some a) ms) :
    ∃ rest ms', ms = (a, rest) :: ms' ∧
      Chain nextItem (some a) (a :: rest) ∧ (a :: rest).length = size ∧
      Mags size nextItem nextMag (nextMag a) ms' := by
  cases ms with
  | nil => cases h.stack
  | cons m ms' =>
    obtain ⟨hhead, hstack⟩ := h.stack
    cases hhead
    obtain ⟨hchain, hlength⟩ := h.full m List.mem_cons_self
    exact ⟨m.2, ms', rfl, hchain, hlength, hstack,
      fun m' hm' => h.full m' (List.mem_cons_of_mem m hm')⟩

theorem Mags.push (h : Mags size nextItem nextMag p ms)
    (hchain : Chain nextItem (some a) (a :: rest))
    (hlength : (a :: rest).length = size) (ha : nextMag a = p) :
    Mags size nextItem nextMag (some a) ((a, rest) :: ms) := by
  refine ⟨⟨rfl, ha ▸ h.stack⟩, fun m hm => ?_⟩
  rcases List.mem_cons.mp hm with rfl | hm
  · exact ⟨hchain, hlength⟩
  · exact h.full m hm

end Mags

def CallOk (s : TcacheState κ α) (loaded l : List α) : TcPc α → Prop
  | .idle => l = []
  | .needMag => loaded = [] ∧ l = []
  | .linking items => loaded = [] ∧ l = items ∧ items.length = s.magSize
  | .reclaiming hdr => ∃ ms,
      Mags s.magSize s.nextItem s.nextMag (some hdr) ms ∧
      l = ms.flatMap magItems
  | .returned next => ∃ ms,
      Mags s.magSize s.nextItem s.nextMag next ms ∧ l = ms.flatMap magItems

structure HandleOk (s : TcacheState κ α) (f : TcPlace κ → List α) (k : κ) :
    Prop where
  capacity : (s.ltc k).capacity = s.magSize
  loaded : Chain s.nextItem (s.ltc k).loaded (f (.loaded k))
  rounds : (f (.loaded k)).length = (s.ltc k).rounds
  bound : (s.ltc k).rounds ≤ s.magSize
  previous : Chain s.nextItem (s.ltc k).previous (f (.previous k))
  full : f (.previous k) = [] ∨ (f (.previous k)).length = s.magSize
  call : CallOk s (f (.loaded k)) (f (.inCall k)) (s.pc k)

def SharedOk (s : TcacheState κ α) (l : List α) : Prop :=
  ∃ ms, Mags s.magSize s.nextItem s.nextMag s.sharedMags ms ∧
    l = ms.flatMap magItems

structure TcInv (s : TcacheState κ α) (f : TcPlace κ → List α) : Prop where
  spread : Spread f s.out
  distinct : s.out.Nodup
  user : f .user = s.user
  handle : ∀ k, HandleOk s f k
  shared : SharedOk s (f .shared)

section Frame

variable {s t : TcacheState κ α} {f g : TcPlace κ → List α} {k : κ}

theorem SharedOk.congr {l : List α} (h : SharedOk s l)
    (hsize : t.magSize = s.magSize) (hhead : t.sharedMags = s.sharedMags)
    (hmem : ∀ x ∈ l, t.nextItem x = s.nextItem x ∧ t.nextMag x = s.nextMag x) :
    SharedOk t l := by
  obtain ⟨ms, hms, rfl⟩ := h
  refine ⟨ms, ?_, rfl⟩
  rw [hsize, hhead]
  exact hms.congr hmem

theorem CallOk.congr {loaded l : List α} {p : TcPc α} (h : CallOk s loaded l p)
    (hsize : t.magSize = s.magSize)
    (hmem : ∀ x ∈ l, t.nextItem x = s.nextItem x ∧ t.nextMag x = s.nextMag x) :
    CallOk t loaded l p := by
  cases p with
  | idle => exact h
  | needMag => exact h
  | linking items =>
    obtain ⟨hloaded, hl, hlength⟩ := h
    exact ⟨hloaded, hl, hsize ▸ hlength⟩
  | reclaiming hdr | returned next =>
    obtain ⟨ms, hms, rfl⟩ := h
    refine ⟨ms, ?_, rfl⟩
    rw [hsize]
    exact hms.congr hmem

theorem HandleOk.frame (h : HandleOk s f k) (hsize : t.magSize = s.magSize)
    (hltc : t.ltc k = s.ltc k) (hpc : t.pc k = s.pc k)
    (hplaces : ∀ p : TcPlace κ, p.handle = some k → g p = f p)
    (hmem : ∀ p : TcPlace κ, p.handle = some k → ∀ x ∈ f p,
      t.nextItem x = s.nextItem x ∧ t.nextMag x = s.nextMag x) :
    HandleOk t g k := by
  have hloaded := hplaces (.loaded k) rfl
  have hprevious := hplaces (.previous k) rfl
  have hcall := hplaces (.inCall k) rfl
  constructor
  · rw [hltc, hsize]
    exact h.capacity
  · rw [hltc, hloaded]
    exact h.loaded.congr fun x hx => (hmem _ rfl x hx).1
  · rw [hltc, hloaded]
    exact h.rounds
  · rw [hltc, hsize]
    exact h.bound
  · rw [hltc, hprevious]
    exact h.previous.congr fun x hx => (hmem _ rfl x hx).1
  · rw [hprevious, hsize]
    exact h.full
  · rw [hpc, hloaded, hcall]
    exact h.call.congr hsize (hmem (.inCall k) rfl)

theorem HandleOk.moved (h : HandleOk s f k) (hsize : t.magSize = s.magSize)
    (hltc : t.ltc k = s.ltc k) (hnext : t.nextItem = s.nextItem)
    (hloaded : g (.loaded k) = f (.loaded k))
    (hprevious : g (.previous k) = f (.previous k))
    (hcall : CallOk t (f (.loaded k)) (g (.inCall k)) (t.pc k)) :
    HandleOk t g k := by
  constructor
  · rw [hltc, hsize]
    exact h.capacity
  · rw [hltc, hnext, hloaded]
    exact h.loaded
  · rw [hltc, hloaded]
    exact h.rounds
  · rw [hltc, hsize]
    exact h.bound
  · rw [hltc, hnext, hprevious]
    exact h.previous
  · rw [hprevious, hsize]
    exact h.full
  · rw [hloaded]
    exact hcall

/-- A step of thread `k`. It writes to items that are at places of its own or
of nobody. -/
theorem TcInv.step (h : TcInv s f) (hspread : Spread g t.out)
    (hdistinct : t.out.Nodup) (hsize : t.magSize = s.magSize)
    (huser : g .user = t.user) (hltc : ∀ j, j ≠ k → t.ltc j = s.ltc j)
    (hpc : ∀ j, j ≠ k → t.pc j = s.pc j)
    (hplaces : ∀ (p : TcPlace κ) (j : κ), p.handle = some j → j ≠ k →
      g p = f p) (hmem : ∀ (p : TcPlace κ) (j : κ), p.handle = some j → j ≠ k →
      ∀ x ∈ f p, t.nextItem x = s.nextItem x ∧ t.nextMag x = s.nextMag x)
    (hk : HandleOk t g k) (hshared : SharedOk t (g .shared)) : TcInv t g := by
  refine ⟨hspread, hdistinct, huser, fun j => ?_, hshared⟩
  by_cases hjk : j = k
  · exact hjk ▸ hk
  · apply (h.handle j).frame hsize (hltc j hjk) (hpc j hjk)
    · exact fun p hp => hplaces p j hp hjk
    · exact fun p hp => hmem p j hp hjk

theorem TcPlace.ne_of_handle {p q : TcPlace κ} {j : κ} (hp : p.handle = some j)
    (hjk : j ≠ k) (hq : q.handle = some k ∨ q.handle = none) : p ≠ q := by
  rintro rfl
  rcases hq with hq | hq
  · rw [hp] at hq
    exact hjk (Option.some.inj hq)
  · rw [hp] at hq
    cases hq

theorem CallOk.idle {loaded l : List α} {p : TcPc α} (hp : p = .idle)
    (hl : l = []) : CallOk s loaded l p := by
  rw [hp]
  exact hl

theorem HandleOk.inCall_nil (h : HandleOk s f k) (hpc : s.pc k = .idle) :
    f (.inCall k) = [] := by
  have hcall := h.call
  rw [hpc] at hcall
  exact hcall

end Frame

variable [DecidableEq κ]

section Refill

variable {s t u : TcacheState κ α} {f g : TcPlace κ → List α} {k : κ}
  {p q : TcPlace κ} {xs ys : List α} {l : TcachePerthread α}

theorem TcInv.refill (h : TcInv s f) (hp : p.handle = some k ∨ p.handle = none)
    (hq : q.handle = some k ∨ q.handle = none) (hpq : p ≠ q)
    (hperm : (xs ++ ys).Perm (f p ++ f q)) (hout : t.out = s.out)
    (hsize : t.magSize = s.magSize)
    (huser : refilled f p q xs ys .user = t.user)
    (hltc : ∀ j, j ≠ k → t.ltc j = s.ltc j) (hpc : ∀ j, j ≠ k → t.pc j = s.pc j)
    (hmem : ∀ r, r ≠ p → r ≠ q → ∀ x ∈ f r,
      t.nextItem x = s.nextItem x ∧ t.nextMag x = s.nextMag x)
    (hk : HandleOk t (refilled f p q xs ys) k)
    (hshared : SharedOk t (refilled f p q xs ys .shared)) :
    TcInv t (refilled f p q xs ys) := by
  have hne : ∀ (r : TcPlace κ) (j : κ), r.handle = some j → j ≠ k →
      r ≠ p ∧ r ≠ q := fun r j hr hjk =>
    ⟨TcPlace.ne_of_handle hr hjk hp, TcPlace.ne_of_handle hr hjk hq⟩
  refine h.step (hout ▸ h.spread.refill hpq hperm) (hout ▸ h.distinct) hsize
    huser hltc hpc ?_ ?_ hk hshared
  · intro r j hr hjk
    exact refilled_other (hne r j hr hjk).1 (hne r j hr hjk).2
  · intro r j hr hjk
    exact hmem r (hne r j hr hjk).1 (hne r j hr hjk).2

theorem setLtc_self (u : TcacheState κ α) (k : κ) (l : TcachePerthread α) :
    (u.setLtc k l).ltc k = l :=
  update_self ..

theorem setLtc_other {j : κ} (hjk : j ≠ k) : (u.setLtc k l).ltc j = u.ltc j :=
  update_of_ne hjk ..

theorem HandleOk.setLtc (hcapacity : l.capacity = u.magSize)
    (hloaded : Chain u.nextItem l.loaded (g (.loaded k)))
    (hrounds : (g (.loaded k)).length = l.rounds)
    (hbound : l.rounds ≤ u.magSize)
    (hprevious : Chain u.nextItem l.previous (g (.previous k)))
    (hfull : g (.previous k) = [] ∨ (g (.previous k)).length = u.magSize)
    (hpc : u.pc k = .idle) (hcall : g (.inCall k) = []) :
    HandleOk (u.setLtc k l) g k := by
  refine ⟨?_, ?_, ?_, ?_, ?_, hfull, .idle hpc hcall⟩ <;> rw [setLtc_self]
  · exact hcapacity
  · exact hloaded
  · exact hrounds
  · exact hbound
  · exact hprevious

end Refill

/-- The first item of the magazine `mag :: rest` at `p` goes to the user and the
others are loaded. -/
def afterReload (f : TcPlace κ → List α) (p : TcPlace κ) (k : κ) (mag : α)
    (rest left : List α) : TcPlace κ → List α :=
  update
    (update (update f p left) (.loaded k) rest)
    .user (mag :: f .user)

section Reload

variable {f : TcPlace κ → List α} {p q : TcPlace κ} {k : κ} {mag : α}
  {rest left out : List α}

theorem afterReload_user :
    afterReload f p k mag rest left .user = mag :: f .user :=
  update_self ..

theorem afterReload_loaded :
    afterReload f p k mag rest left (.loaded k) = rest := by
  rw [afterReload, update_of_ne (by simp), update_self]

theorem afterReload_source (hpl : p ≠ .loaded k) (hpu : p ≠ .user) :
    afterReload f p k mag rest left p = left := by
  rw [afterReload, update_of_ne hpu, update_of_ne hpl, update_self]

theorem afterReload_other (hqp : q ≠ p) (hql : q ≠ .loaded k)
    (hqu : q ≠ .user) : afterReload f p k mag rest left q = f q := by
  rw [afterReload, update_of_ne hqu, update_of_ne hql, update_of_ne hqp]

theorem afterReload_handle {j : κ} (hp : p.handle = some k ∨ p.handle = none)
    (hq : q.handle = some j) (hjk : j ≠ k) :
    afterReload f p k mag rest left q = f q := by
  apply afterReload_other
  · exact TcPlace.ne_of_handle hq hjk hp
  · exact TcPlace.ne_of_handle hq hjk (.inl rfl)
  · exact TcPlace.ne_of_handle hq hjk (.inr rfl)

theorem afterReload_spread (h : Spread f out) (hloaded : f (.loaded k) = [])
    (hp : f p = mag :: (rest ++ left)) (hpl : p ≠ .loaded k) (hpu : p ≠ .user) :
    Spread (afterReload f p k mag rest left) out := by
  -- the magazine is loaded as a whole, and then gives one item
  have hmag : Spread (update (update f p left) (.loaded k)
      (mag :: rest)) out := by
    apply h.move hpl
    · rw [update_of_ne hpl, update_self,
        update_self, hp, hloaded, List.append_nil]
      exact List.perm_append_comm
    · intro r hrp hrl
      rw [update_of_ne hrl, update_of_ne hrp]
  apply hmag.move (p := .loaded k) (q := .user) (by simp)
  · rw [afterReload_loaded, afterReload_user, update_self,
      update_of_ne (by simp), update_of_ne hpu.symm]
    exact List.perm_middle
  · intro r hrl hru
    rw [afterReload, update_of_ne hru, update_of_ne hrl, update_of_ne hrl]

end Reload

structure OwnStep (s u : TcacheState κ α) (k : κ) : Prop where
  size : u.magSize = s.magSize
  out : u.out = s.out
  user : u.user = s.user
  ltc : ∀ j, j ≠ k → u.ltc j = s.ltc j
  pc : ∀ j, j ≠ k → u.pc j = s.pc j

omit [DecidableEq κ] in
theorem OwnStep.refl {s : TcacheState κ α} {k : κ} : OwnStep s s k :=
  ⟨rfl, rfl, rfl, fun _ _ => rfl, fun _ _ => rfl⟩

theorem OwnStep.setLtc {s u : TcacheState κ α} {k : κ} {l : TcachePerthread α}
    (h : OwnStep s u k) : OwnStep s (u.setLtc k l) k :=
  { h with ltc := fun j hjk => (setLtc_other hjk).trans (h.ltc j hjk) }

/-- How many magazines the call of a thread has taken from the backing store
and not counted, less those it has returned and still counts. -/
def TcPc.uncounted : TcPc α → Int
  | .linking _ => 1
  | .returned _ => -1
  | _ => 0

structure SameStore (s t : TcacheState κ α) : Prop where
  size : t.magSize = s.magSize
  out : t.out = s.out
  taken : t.taken = s.taken
  given : t.given = s.given
  mags : t.magsAllocated = s.magsAllocated
  uncounted : ∀ j, (t.pc j).uncounted = (s.pc j).uncounted

section Alloc

variable {s t u : TcacheState κ α} {f g : TcPlace κ → List α}
  {p : TcPlace κ} {k : κ} {mag : α} {rest left : List α} {r : Nat}

theorem TcInv.takeItem (h : TcInv s f)
    (hp : p.handle = some k ∨ p.handle = none)
    (hspread : Spread (afterReload f p k mag rest left) s.out)
    (hown : OwnStep s u k)
    (hmem : ∀ (q : TcPlace κ) (j : κ), q.handle = some j → j ≠ k →
      ∀ x ∈ f q, u.nextItem x = s.nextItem x ∧ u.nextMag x = s.nextMag x)
    (hk : HandleOk (u.takeItem k r mag) (afterReload f p k mag rest left) k)
    (hshared : SharedOk u (afterReload f p k mag rest left .shared)) :
    TcInv (u.takeItem k r mag) (afterReload f p k mag rest left) := by
  apply h.step (k := k)
  · change Spread _ u.out
    exact hown.out ▸ hspread
  · change u.out.Nodup
    exact hown.out ▸ h.distinct
  · exact hown.size
  · change _ = mag :: u.user
    rw [afterReload_user, h.user, hown.user]
  · exact fun j hjk => (setLtc_other hjk).trans (hown.ltc j hjk)
  · exact hown.pc
  · exact fun q j hq hjk => afterReload_handle hp hq hjk
  · exact hmem
  · exact hk
  · exact hshared.congr rfl rfl fun _ _ => ⟨rfl, rfl⟩

omit [DecidableEq κ] in
theorem HandleOk.loaded_nil (h : HandleOk s f k)
    (hrounds : (s.ltc k).rounds = 0) : f (.loaded k) = [] := by
  rw [← List.length_eq_zero_iff, h.rounds, hrounds]

structure AllocOk (s t : TcacheState κ α) (answer : TcAnswer α) : Prop where
  inv : ∃ g, TcInv t g
  store : SameStore s t
  user : t.user = answer.join.toList ++ s.user
  notNull : answer ≠ some none

theorem tcacheAlloc_fast [DecidableEq α] (h : TcInv s f) (hpc : s.pc k = .idle)
    (hrounds : (s.ltc k).rounds ≠ 0) :
    ∃ t answer, tcacheAlloc s k = .ok (t, answer) ∧ AllocOk s t answer := by
  have hk := h.handle k
  have hchain := hk.loaded
  have hlength := hk.rounds
  have hbound := hk.bound
  unfold tcacheAlloc
  rw [if_neg hrounds]
  cases hloaded : (s.ltc k).loaded with
  | none =>
    rw [hloaded] at hchain
    rw [hchain.eq_nil] at hlength
    exact absurd hlength.symm hrounds
  | some item =>
    rw [hloaded] at hchain
    obtain ⟨rest, hitems, hrest⟩ := hchain.pop
    rw [hitems, List.length_cons] at hlength
    have hother : ∀ q : TcPlace κ, q ≠ .loaded k → q ≠ .user →
        afterReload f (.loaded k) k item rest [] q = f q :=
      fun q hql hqu => afterReload_other hql hql hqu
    have hspread : Spread (afterReload f (.loaded k) k item rest []) s.out := by
      apply h.spread.move (p := .loaded k) (q := .user) (by simp)
      · rw [afterReload_loaded, afterReload_user, hitems]
        exact List.perm_middle
      · exact hother
    refine ⟨_, _, rfl, ⟨afterReload f (.loaded k) k item rest [], ?_⟩,
      ⟨rfl, rfl, rfl, rfl, rfl, fun _ => rfl⟩, rfl, nofun⟩
    refine h.takeItem (.inl rfl) hspread .refl
      (fun _ _ _ _ _ _ => ⟨rfl, rfl⟩) ?_ ?_
    · apply HandleOk.setLtc
      · exact hk.capacity
      · rw [afterReload_loaded]
        exact hrest
      · rw [afterReload_loaded]
        exact Nat.eq_sub_of_add_eq hlength
      · exact (Nat.sub_le _ _).trans hbound
      · rw [hother _ (by simp) (by simp)]
        exact hk.previous
      · rw [hother _ (by simp) (by simp)]
        exact hk.full
      · exact hpc
      · rw [hother _ (by simp) (by simp)]
        exact hk.inCall_nil hpc
    · rw [hother _ (by simp) (by simp)]
      exact h.shared

theorem tcacheReload_ok [DecidableEq α] (h : TcInv s f) (left : List α)
    (hp : p.handle = some k ∨ p.handle = none) (hpl : p ≠ .loaded k)
    (hpu : p ≠ .user) (hloaded : f (.loaded k) = [])
    (hmag : f p = mag :: (rest ++ left))
    (hlength : (mag :: rest).length = s.magSize) (hown : OwnStep s u k)
    (hu : (u.ltc k).loaded = some mag)
    (hcapacity : (u.ltc k).capacity = s.magSize) (hidle : u.pc k = .idle)
    (hchain : Chain u.nextItem (some mag) (mag :: rest))
    (hmem : ∀ (q : TcPlace κ) (j : κ), q.handle = some j → j ≠ k →
      ∀ x ∈ f q, u.nextItem x = s.nextItem x ∧ u.nextMag x = s.nextMag x)
    (hprevious : Chain u.nextItem (u.ltc k).previous
      (afterReload f p k mag rest left (.previous k)))
    (hfull : afterReload f p k mag rest left (.previous k) = [] ∨
      (afterReload f p k mag rest left (.previous k)).length = s.magSize)
    (hcall : afterReload f p k mag rest left (.inCall k) = [])
    (hshared : SharedOk u (afterReload f p k mag rest left .shared)) :
    ∃ t, tcacheReload u k = .ok (t, some (some mag)) ∧ (∃ g, TcInv t g) ∧
      t = u.takeItem k (s.magSize - 1) mag := by
  rw [List.length_cons] at hlength
  have hspread := afterReload_spread h.spread hloaded hmag hpl hpu
  refine ⟨u.takeItem k (s.magSize - 1) mag, ?_,
    ⟨afterReload f p k mag rest left, ?_⟩, rfl⟩
  · rw [tcacheReload, hu, hcapacity]
  · refine h.takeItem hp hspread hown hmem ?_ hshared
    apply HandleOk.setLtc
    · exact hcapacity.trans hown.size.symm
    · rw [afterReload_loaded]
      exact hchain.2
    · rw [afterReload_loaded]
      exact Nat.eq_sub_of_add_eq hlength
    · exact (Nat.sub_le _ _).trans hown.size.ge
    · exact hprevious
    · rw [hown.size]
      exact hfull
    · exact hidle
    · exact hcall

theorem tcacheAlloc_previous [DecidableEq α] (h : TcInv s f)
    (hpc : s.pc k = .idle) (hrounds : (s.ltc k).rounds = 0)
    (hprev : (s.ltc k).previous = some mag) :
    ∃ t answer, tcacheReload (s.setLtc k
      { s.ltc k with loaded := some mag, previous := none }) k =
        .ok (t, answer) ∧ AllocOk s t answer := by
  have hk := h.handle k
  have hchain := hk.previous
  rw [hprev] at hchain
  obtain ⟨rest, hitems, -⟩ := hchain.pop
  have hfull := hk.full
  rw [hitems] at hchain hfull
  have hprevious : afterReload f (.previous k) k mag rest [] (.previous k) =
      [] := afterReload_source (by simp) (by simp)
  have hother : ∀ q : TcPlace κ, q ≠ .previous k → q ≠ .loaded k → q ≠ .user →
      afterReload f (.previous k) k mag rest [] q = f q :=
    fun q => afterReload_other
  have hown := (OwnStep.refl (s := s) (k := k)).setLtc
    (l := { s.ltc k with loaded := some mag, previous := none })
  obtain ⟨t, hrun, hinv, rfl⟩ := tcacheReload_ok h [] (.inl rfl)
    (by simp) (by simp) (hk.loaded_nil hrounds) (by rw [hitems, List.append_nil])
    (hfull.resolve_left (List.cons_ne_nil mag rest)) hown
    (by rw [setLtc_self]) (by rw [setLtc_self]; exact hk.capacity) hpc hchain
    (fun _ _ _ _ _ _ => ⟨rfl, rfl⟩)
    (by rw [setLtc_self, hprevious]; exact .nil) (.inl hprevious)
    ((hother _ (by simp) (by simp) (by simp)).trans (hk.inCall_nil hpc))
    (by rw [hother _ (by simp) (by simp) (by simp)]; exact h.shared)
  exact ⟨_, _, hrun, hinv, ⟨rfl, rfl, rfl, rfl, rfl, fun _ => rfl⟩, rfl, nofun⟩

theorem tcacheAlloc_shared [DecidableEq α] (h : TcInv s f)
    (hpc : s.pc k = .idle) (hrounds : (s.ltc k).rounds = 0)
    (hhead : s.sharedMags = some mag) :
    ∃ t answer, tcacheReload ({ s with sharedMags := s.nextMag mag }.setLtc k
      { s.ltc k with loaded := some mag }) k = .ok (t, answer) ∧
      AllocOk s t answer := by
  have hk := h.handle k
  obtain ⟨ms, hms, hitems⟩ := h.shared
  rw [hhead] at hms
  obtain ⟨rest, ms', rfl, hchain, hlength, hms'⟩ := hms.pop
  have hown : OwnStep s { s with sharedMags := s.nextMag mag } k :=
    ⟨rfl, rfl, rfl, fun _ _ => rfl, fun _ _ => rfl⟩
  have hother : ∀ q : TcPlace κ, q ≠ .shared → q ≠ .loaded k → q ≠ .user →
      afterReload f .shared k mag rest (ms'.flatMap magItems) q = f q :=
    fun q => afterReload_other
  obtain ⟨t, hrun, hinv, rfl⟩ := tcacheReload_ok h
    (ms'.flatMap magItems) (.inr rfl) (by simp) (by simp)
    (hk.loaded_nil hrounds) hitems hlength
    (hown.setLtc (l := { s.ltc k with loaded := some mag }))
    (by rw [setLtc_self])
    (by rw [setLtc_self]; exact hk.capacity) hpc hchain
    (fun _ _ _ _ _ _ => ⟨rfl, rfl⟩)
    (by
      rw [setLtc_self, hother _ (by simp) (by simp) (by simp)]
      exact hk.previous)
    (by rw [hother _ (by simp) (by simp) (by simp)]; exact hk.full)
    ((hother _ (by simp) (by simp) (by simp)).trans (hk.inCall_nil hpc))
    (by rw [afterReload_source (by simp) (by simp)]; exact ⟨ms', hms', rfl⟩)
  exact ⟨_, _, hrun, hinv, ⟨rfl, rfl, rfl, rfl, rfl, fun _ => rfl⟩, rfl, nofun⟩

theorem TcInv.setPc {pc : TcPc α} (h : TcInv s f)
    (hcall : CallOk s (f (.loaded k)) (f (.inCall k)) pc) :
    TcInv (s.setPc k pc) f := by
  refine { h with handle := fun j => ?_ }
  have hj := h.handle j
  refine { hj with call := ?_ }
  by_cases hjk : j = k
  · subst hjk
    change CallOk _ _ _ (update s.pc j pc j)
    rw [update_self]
    exact hcall.congr rfl fun _ _ => ⟨rfl, rfl⟩
  · change CallOk _ _ _ (update s.pc k pc j)
    rw [update_of_ne hjk]
    exact hj.call.congr rfl fun _ _ => ⟨rfl, rfl⟩

theorem setPc_uncounted {pc : TcPc α} (hpc : pc.uncounted =
    (s.pc k).uncounted) (j : κ) :
    ((s.setPc k pc).pc j).uncounted = (s.pc j).uncounted := by
  by_cases hjk : j = k
  · subst hjk
    change (update s.pc j pc j).uncounted = _
    rw [update_self, hpc]
  · change (update s.pc k pc j).uncounted = _
    rw [update_of_ne hjk]

/-- `tcache_alloc` up to the call of the backing store: it returns an item,
unless the thread has no magazine and the pool is empty. -/
theorem tcacheAlloc_ok [DecidableEq α] (h : TcInv s f) (hpc : s.pc k = .idle) :
    ∃ t answer, tcacheAlloc s k = .ok (t, answer) ∧ AllocOk s t answer := by
  by_cases hrounds : (s.ltc k).rounds = 0
  · have hk := h.handle k
    have hnil := hk.loaded_nil hrounds
    have hchain := hk.loaded
    rw [hnil] at hchain
    have hassert : ¬ ((s.ltc k).rounds ≠ 0 ∨ (s.ltc k).loaded ≠ none) := by
      rintro (hne | hne)
      · exact hne hrounds
      · exact hne hchain
    unfold tcacheAlloc tcacheAllocSlow
    rw [if_pos hrounds]
    simp only [if_neg hassert]
    cases hprev : (s.ltc k).previous with
    | some mag =>
      have hcase := tcacheAlloc_previous h hpc hrounds hprev
      exact hcase
    | none =>
      cases hhead : s.sharedMags with
      | some mag =>
        have hcase := tcacheAlloc_shared h hpc hrounds hhead
        dsimp only at hcase
        rw [hprev] at hcase
        exact hcase
      | none =>
        refine ⟨_, _, rfl, ⟨f, h.setPc ⟨hnil, hk.inCall_nil hpc⟩⟩,
          ⟨rfl, rfl, rfl, rfl, rfl, ?_⟩, rfl, nofun⟩
        apply setPc_uncounted
        rw [hpc]
        rfl
  · exact tcacheAlloc_fast h hpc hrounds

end Alloc

section Load

variable [DecidableEq α] {s : TcacheState κ α} {f : TcPlace κ → List α} {k : κ}
  {nextItem : α → Option α} {items : List α}

theorem linkItems_other {x : α} (hx : x ∉ items) :
    linkItems nextItem items x = nextItem x := by
  fun_induction linkItems nextItem items with
  | case1 nextItem => rfl
  | case2 nextItem a =>
    apply update_of_ne
    rintro rfl
    exact hx List.mem_cons_self
  | case3 nextItem a b rest ih =>
    rw [ih fun hmem => hx (List.mem_cons_of_mem a hmem)]
    apply update_of_ne
    rintro rfl
    exact hx List.mem_cons_self

theorem linkItems_chain (hnodup : items.Nodup) :
    Chain (linkItems nextItem items) items.head? items := by
  fun_induction linkItems nextItem items with
  | case1 nextItem => rfl
  | case2 nextItem a =>
    refine ⟨rfl, ?_⟩
    rw [update_self]
    exact .nil
  | case3 nextItem a b rest ih =>
    obtain ⟨hnot, hrest⟩ := List.nodup_cons.mp hnodup
    refine ⟨rfl, ?_⟩
    rw [linkItems_other hnot, update_self]
    exact ih hrest

theorem tcacheLoad_ok (h : TcInv s f) (hpos : 0 < s.magSize)
    (hpc : s.pc k = .linking items) :
    ∃ t item, tcacheLoad s k items = .ok (t, some (some item)) ∧
      (∃ g, TcInv t g) ∧ t.user = item :: s.user ∧ t.magSize = s.magSize ∧
      t.out = s.out ∧ t.taken = s.taken ∧ t.given = s.given ∧
      t.magsAllocated = s.magsAllocated + 1 ∧
      t.pc = update s.pc k .idle := by
  have hk := h.handle k
  have hcall := hk.call
  rw [hpc] at hcall
  obtain ⟨hloaded, hitems, hlength⟩ := hcall
  obtain ⟨mag, rest, rfl⟩ : ∃ mag rest, items = mag :: rest := by
    cases items with
    | nil => exact absurd hlength (Nat.ne_of_lt hpos)
    | cons mag rest => exact ⟨mag, rest, rfl⟩
  have hnodup : (mag :: rest).Nodup := hitems ▸ h.spread.nodup (.inCall k)
  -- the items are with this thread only
  have hother : ∀ q : TcPlace κ, q ≠ .inCall k → ∀ x ∈ f q,
      linkItems s.nextItem (mag :: rest) x = s.nextItem x := by
    intro q hq x hx
    apply linkItems_other
    intro hmem
    rw [← hitems] at hmem
    exact h.spread.ne hx hmem hq rfl
  -- the thread as it is when the magazine is assigned to `loaded`
  obtain ⟨u, hu⟩ : ∃ u, u = ({ s with
      nextItem := linkItems s.nextItem (mag :: rest)
      magsAllocated := s.magsAllocated + 1 }.setLtc k
        { s.ltc k with loaded := some mag }).setPc k .idle := ⟨_, rfl⟩
  have hset : u.ltc k = { s.ltc k with loaded := some mag } := by
    rw [hu]
    exact update_self ..
  have hown : OwnStep s u k := by
    subst hu
    exact ⟨rfl, rfl, rfl, fun j hjk => update_of_ne hjk ..,
      fun j hjk => update_of_ne hjk ..⟩
  have hnext : u.nextItem = linkItems s.nextItem (mag :: rest) := hu ▸ rfl
  have hnextMag : u.nextMag = s.nextMag := hu ▸ rfl
  have hprevious : afterReload f (.inCall k) k mag rest [] (.previous k) =
      f (.previous k) := afterReload_other (by simp) (by simp) (by simp)
  have hinCall : afterReload f (.inCall k) k mag rest [] (.inCall k) = [] :=
    afterReload_source (by simp) (by simp)
  have hshared : afterReload f (.inCall k) k mag rest [] .shared =
      f .shared := afterReload_other (by simp) (by simp) (by simp)
  have hmem : ∀ q : TcPlace κ, q ≠ .inCall k → ∀ x ∈ f q,
      u.nextItem x = s.nextItem x ∧ u.nextMag x = s.nextMag x := by
    intro q hq x hx
    rw [hnext, hnextMag]
    exact ⟨hother q hq x hx, rfl⟩
  have hpool : SharedOk u (f .shared) := by
    apply h.shared.congr
    · rw [hu]
      rfl
    · rw [hu]
      rfl
    · exact hmem .shared (by simp)
  have hbehind : Chain u.nextItem (u.ltc k).previous (f (.previous k)) := by
    rw [hset]
    exact hk.previous.congr fun x hx => (hmem (.previous k) (by simp) x hx).1
  obtain ⟨t, hrun, hinv, ht⟩ := tcacheReload_ok h [] (.inl rfl)
    (by simp) (by simp) hloaded (by rw [hitems, List.append_nil]) hlength hown
    (by rw [hset]) (by rw [hset]; exact hk.capacity)
    (by rw [hu]; exact update_self ..)
    (by rw [hnext]; exact linkItems_chain hnodup)
    (fun q j hq hjk => hmem q (TcPlace.ne_of_handle hq hjk (.inl rfl)))
    (by rw [hprevious]; exact hbehind) (by rw [hprevious]; exact hk.full)
    hinCall (by rw [hshared]; exact hpool)
  subst hu ht
  exact ⟨_, mag, hrun, hinv, rfl, rfl, rfl, rfl, rfl, rfl, rfl⟩

end Load

section Free

variable [DecidableEq α] {s : TcacheState κ α} {f : TcPlace κ → List α} {k : κ}
  {item mag : α}

theorem TcInv.putItem (h : TcInv s f) (hitem : item ∈ s.user)
    (hpc : s.pc k = .idle) (hroom : (s.ltc k).rounds < s.magSize) :
    TcInv (s.putItem k item)
      (refilled f .user (.loaded k) (s.user.erase item)
        (item :: f (.loaded k))) := by
  have hk := h.handle k
  have hplace : item ∈ f .user := h.user ▸ hitem
  -- no other place has the item
  have hnext : ∀ q : TcPlace κ, q ≠ .user → ∀ x ∈ f q,
      update s.nextItem item (s.ltc k).loaded x = s.nextItem x := by
    intro q hq x hx
    exact update_of_ne (h.spread.ne hx hplace hq) ..
  refine h.refill (.inr rfl) (.inl rfl) (by simp) ?_ rfl rfl
    (refilled_left (by simp)) (fun j => setLtc_other) (fun j _ => rfl)
    (fun r hru _ x hx => ⟨hnext r hru x hx, rfl⟩) ?_ ?_
  · rw [h.user]
    apply List.perm_middle.trans
    exact (List.perm_cons_erase hitem).symm.append_right _
  · apply HandleOk.setLtc
    · exact hk.capacity
    · rw [refilled_right]
      apply hk.loaded.push
      exact fun hmem => h.spread.ne hmem hplace (by simp) rfl
    · rw [refilled_right, List.length_cons, hk.rounds]
    · exact hroom
    · rw [refilled_other (by simp) (by simp)]
      exact hk.previous.congr (hnext _ (by simp))
    · rw [refilled_other (by simp) (by simp)]
      exact hk.full
    · exact hpc
    · rw [refilled_other (by simp) (by simp)]
      exact hk.inCall_nil hpc
  · rw [refilled_other (by simp) (by simp)]
    refine h.shared.congr rfl rfl fun x hx => ?_
    exact ⟨hnext .shared (by simp) x hx, rfl⟩

omit [DecidableEq α] in
theorem TcInv.stash (h : TcInv s f) (hpc : s.pc k = .idle)
    (hrounds : (s.ltc k).rounds = s.magSize)
    (hprev : (s.ltc k).previous = none) :
    TcInv (s.setLtc k { s.ltc k with
        rounds := 0, loaded := none, previous := (s.ltc k).loaded })
      (refilled f (.loaded k) (.previous k) [] (f (.loaded k))) := by
  have hk := h.handle k
  have hnone := hk.previous
  rw [hprev] at hnone
  refine h.refill (.inl rfl) (.inl rfl) (by simp) ?_ rfl rfl ?_
    (fun j => setLtc_other) (fun j _ => rfl) (fun _ _ _ _ _ => ⟨rfl, rfl⟩) ?_ ?_
  · rw [hnone.eq_nil, List.append_nil, List.nil_append]
  · rw [refilled_other (by simp) (by simp)]
    exact h.user
  · apply HandleOk.setLtc
    · exact hk.capacity
    · rw [refilled_left (by simp)]
      exact .nil
    · rw [refilled_left (by simp)]
      rfl
    · exact Nat.zero_le _
    · rw [refilled_right]
      exact hk.loaded
    · rw [refilled_right, hk.rounds]
      exact .inr hrounds
    · exact hpc
    · rw [refilled_other (by simp) (by simp)]
      exact hk.inCall_nil hpc
  · rw [refilled_other (by simp) (by simp)]
    exact h.shared.congr rfl rfl fun _ _ => ⟨rfl, rfl⟩

omit [DecidableEq α] in
theorem TcInv.share [DecidableEq α] (h : TcInv s f) (hpc : s.pc k = .idle)
    (hprev : (s.ltc k).previous = some mag) :
    TcInv ({ s with
      nextMag := update s.nextMag mag s.sharedMags
      sharedMags := some mag }.setLtc k { s.ltc k with previous := none })
      (refilled f (.previous k) .shared [] (f (.previous k) ++ f .shared)) := by
  have hk := h.handle k
  have hchain := hk.previous
  have hfull := hk.full
  rw [hprev] at hchain
  obtain ⟨rest, hitems, -⟩ := hchain.pop
  have hmag : mag ∈ f (.previous k) := hitems ▸ List.mem_cons_self
  have hnext : ∀ q : TcPlace κ, q ≠ .previous k → ∀ x ∈ f q,
      update s.nextMag mag s.sharedMags x = s.nextMag x := by
    intro q hq x hx
    exact update_of_ne (h.spread.ne hx hmag hq) ..
  refine h.refill (.inl rfl) (.inr rfl) (by simp) ?_ rfl rfl ?_
    (fun j => setLtc_other) (fun j _ => rfl)
    (fun r hrp _ x hx => ⟨rfl, hnext r hrp x hx⟩) ?_ ?_
  · rw [List.nil_append]
  · rw [refilled_other (by simp) (by simp)]
    exact h.user
  · apply HandleOk.setLtc
    · exact hk.capacity
    · rw [refilled_other (by simp) (by simp)]
      exact hk.loaded
    · rw [refilled_other (by simp) (by simp)]
      exact hk.rounds
    · exact hk.bound
    · rw [refilled_left (by simp)]
      exact .nil
    · exact .inl (refilled_left (by simp))
    · exact hpc
    · rw [refilled_other (by simp) (by simp)]
      exact hk.inCall_nil hpc
  · rw [refilled_right]
    obtain ⟨ms, hms, hpool⟩ := h.shared
    rw [hitems] at hchain hfull
    refine ⟨(mag, rest) :: ms, ?_, ?_⟩
    · have hms' : Mags s.magSize s.nextItem
          (update s.nextMag mag s.sharedMags) s.sharedMags ms := by
        apply hms.congr
        intro x hx
        exact ⟨rfl, hnext .shared (by simp) x (hpool ▸ hx)⟩
      apply hms'.push hchain
      · exact hfull.resolve_left (List.cons_ne_nil mag rest)
      · exact update_self ..
    · rw [hitems, hpool]
      rfl

theorem tcacheStartMag_eq (s : TcacheState κ α) (k : κ) (item : α) :
    tcacheStartMag s k item =
      (s.setLtc k { s.ltc k with rounds := 0, loaded := none }).putItem k
        item := by
  unfold TcacheState.putItem tcacheStartMag
  rw [setLtc_self]
  simp only [TcacheState.setLtc, update_idem]

omit [DecidableEq α] in
theorem setLtc_setLtc (s : TcacheState κ α) (k : κ) (l l' : TcachePerthread α) :
    (s.setLtc k l).setLtc k l' = s.setLtc k l' := by
  simp only [TcacheState.setLtc, update_idem]

theorem tcacheFree_ok (h : TcInv s f) (hpos : 0 < s.magSize)
    (hitem : item ∈ s.user) (hpc : s.pc k = .idle) :
    ∃ t, tcacheFree s k item = .ok t ∧ (∃ g, TcInv t g) ∧ SameStore s t ∧
      t.user = s.user.erase item := by
  have hk := h.handle k
  have hcapacity := hk.capacity
  have hbound := hk.bound
  unfold tcacheFree
  by_cases hslow : (s.ltc k).capacity ≤ (s.ltc k).rounds
  · have hrounds : (s.ltc k).rounds = s.magSize := by omega
    have hloaded : (s.ltc k).loaded ≠ none := by
      apply hk.loaded.ne_none
      intro hnil
      have hlength := hk.rounds
      rw [hnil, List.length_nil] at hlength
      omega
    have hassert : ¬ ((s.ltc k).rounds ≠ (s.ltc k).capacity ∨
        (s.ltc k).loaded = none) := by
      rintro (hne | hnone)
      · omega
      · exact hloaded hnone
    rw [if_pos hslow, tcacheFreeSlow]
    simp only [if_neg hassert]
    cases hprev : (s.ltc k).previous with
    | none =>
      have hstash := h.stash hpc hrounds hprev
      have hput := hstash.putItem hitem hpc (by rw [setLtc_self]; exact hpos)
      refine ⟨_, rfl, ?_, ⟨rfl, rfl, rfl, rfl, rfl, fun _ => rfl⟩, rfl⟩
      rw [tcacheStartMag_eq, setLtc_setLtc, setLtc_self]
      exact ⟨_, hput⟩
    | some mag =>
      have hshare := h.share hpc hprev
      have hstash := hshare.stash (k := k) hpc
        (by rw [setLtc_self]; exact hrounds) (by rw [setLtc_self])
      rw [setLtc_self, setLtc_setLtc] at hstash
      have hput := hstash.putItem hitem hpc (by rw [setLtc_self]; exact hpos)
      refine ⟨_, rfl, ?_, ⟨rfl, rfl, rfl, rfl, rfl, fun _ => rfl⟩, rfl⟩
      rw [tcacheStartMag_eq, setLtc_setLtc, setLtc_self]
      exact ⟨_, hput⟩
  · rw [if_neg hslow]
    exact ⟨_, rfl, ⟨_, h.putItem hitem hpc (by omega)⟩,
      ⟨rfl, rfl, rfl, rfl, rfl, fun _ => rfl⟩, rfl⟩

end Free

section Store

variable {s : TcacheState κ α} {f : TcPlace κ → List α} {k : κ}

/-- A call of the backing store changes what the call of `k` has and what is
out. -/
theorem TcInv.storeCall {t : TcacheState κ α} {l : List α} {p : TcPc α}
    (h : TcInv s f) (hspread : Spread (update f (.inCall k) l) t.out)
    (hdistinct : t.out.Nodup) (hsize : t.magSize = s.magSize)
    (huser : t.user = s.user) (hltc : t.ltc = s.ltc)
    (hpc : t.pc = update s.pc k p) (hitem : t.nextItem = s.nextItem)
    (hmag : t.nextMag = s.nextMag) (hhead : t.sharedMags = s.sharedMags)
    (hcall : CallOk s (f (.loaded k)) l p) :
    TcInv t (update f (.inCall k) l) := by
  have hsame : ∀ x : α, t.nextItem x = s.nextItem x ∧
      t.nextMag x = s.nextMag x := fun x =>
    ⟨congrFun hitem x, congrFun hmag x⟩
  have hother : ∀ q : TcPlace κ, q ≠ .inCall k →
      update f (.inCall k) l q = f q := fun q hq => update_of_ne hq ..
  apply h.step (k := k) hspread hdistinct hsize
  · rw [hother _ (by simp), huser]
    exact h.user
  · exact fun j _ => congrFun hltc j
  · exact fun j hjk => by rw [hpc, update_of_ne hjk]
  · exact fun q j hq hjk =>
      hother q (TcPlace.ne_of_handle hq hjk (.inl rfl))
  · exact fun _ _ _ _ x _ => hsame x
  · refine (h.handle k).moved hsize (congrFun hltc k) hitem
      (hother _ (by simp)) (hother _ (by simp)) ?_
    rw [hpc, update_self, update_self]
    exact hcall.congr hsize fun x _ => hsame x
  · rw [hother _ (by simp)]
    exact h.shared.congr hsize hhead fun x _ => hsame x

theorem TcInv.fetch {items : List α} (h : TcInv s f) (hpc : s.pc k = .needMag)
    (hstore : s.storeOk (some items)) :
    TcInv (tcacheFetch s k (some items)).1
      (update f (.inCall k) items) := by
  obtain ⟨hlength, hnodup, hfresh⟩ := hstore items rfl
  have hcall := (h.handle k).call
  rw [hpc] at hcall
  refine h.storeCall ?_ ?_ rfl rfl rfl rfl rfl rfl rfl
    (show CallOk _ _ _ (.linking items) from ⟨hcall.1, rfl, hlength⟩)
  · have hspread := h.spread.add (g := update f (.inCall k) items) hcall.2
      (by rwa [update_self]) (by rwa [update_self])
      fun q hq => update_of_ne hq ..
    rwa [update_self] at hspread
  · exact hnodup.append h.distinct fun x hx hout => hfresh x hx hout

omit [DecidableEq κ] in
theorem CallOk.reclaimAt {next : Option α} {loaded l : List α}
    (h : ∃ ms, Mags s.magSize s.nextItem s.nextMag next ms ∧
      l = ms.flatMap magItems) : CallOk s loaded l (reclaimAt next) := by
  obtain ⟨ms, hms, hl⟩ := h
  cases next with
  | none =>
    rw [List.map_eq_nil_iff.mp hms.stack.eq_nil] at hl
    exact hl
  | some hdr => exact ⟨ms, hms, hl⟩

theorem TcInv.reclaim (h : TcInv s f) (hpc : s.pc k = .idle) :
    TcInv (tcacheReclaim s k)
      (refilled f .shared (.inCall k) [] (f .shared)) := by
  have hk := h.handle k
  refine h.refill (.inr rfl) (.inl rfl) (by simp) ?_ rfl rfl ?_
    (fun j _ => rfl) (fun j hjk => update_of_ne hjk ..)
    (fun _ _ _ _ _ => ⟨rfl, rfl⟩) ?_ ?_
  · rw [hk.inCall_nil hpc, List.append_nil, List.nil_append]
  · rw [refilled_other (by simp) (by simp)]
    exact h.user
  · refine hk.moved rfl rfl rfl (refilled_other (by simp) (by simp))
      (refilled_other (by simp) (by simp)) ?_
    change CallOk _ _ _ (update s.pc k (reclaimAt s.sharedMags) k)
    rw [refilled_right, update_self]
    exact CallOk.reclaimAt h.shared
  · rw [refilled_left (by simp)]
    exact ⟨[], .empty, rfl⟩

theorem collectItems_ok {nextItem : α → Option α} {p : Option α} {l : List α}
    {room : Nat} (h : Chain nextItem p l) (hroom : l.length ≤ room) :
    collectItems nextItem room p = .ok l := by
  induction l generalizing p room with
  | nil =>
    obtain rfl : p = none := h
    cases room <;> rfl
  | cons a rest ih =>
    obtain ⟨rfl, hrest⟩ := h
    cases room with
    | zero => cases hroom
    | succ room =>
      have hcollect := ih hrest (Nat.le_of_succ_le_succ hroom)
      simp only [collectItems, hcollect]
      rfl

theorem tcacheFreeMag_ok [DecidableEq α] {hdr : α} (h : TcInv s f)
    (hsize : s.magSize ≤ tcacheMaxMagSize) (hpc : s.pc k = .reclaiming hdr) :
    ∃ items : List α, tcacheFreeMag s k hdr =
        .ok ({ s with
          out := s.out.filter (· ∉ items)
          given := s.given + items.length }.setPc k
            (.returned (s.nextMag hdr))) ∧
      items.length = s.magSize ∧ items.Nodup ∧ (∀ x ∈ items, x ∈ s.out) ∧
      ∃ g, TcInv ({ s with
        out := s.out.filter (· ∉ items)
        given := s.given + items.length }.setPc k
          (.returned (s.nextMag hdr))) g := by
  have hk := h.handle k
  have hcall := hk.call
  rw [hpc] at hcall
  obtain ⟨ms, hms, hitems⟩ := hcall
  obtain ⟨rest, ms', rfl, hchain, hlength, hms'⟩ := hms.pop
  have hmem : ∀ x ∈ hdr :: rest, x ∈ f (.inCall k) := by
    intro x hx
    rw [hitems]
    exact List.mem_append_left _ hx
  have hnodup : (hdr :: rest).Nodup := by
    have hall := h.spread.nodup (.inCall k)
    rw [hitems] at hall
    exact (List.nodup_append.mp hall).1
  refine ⟨hdr :: rest, ?_, hlength, hnodup,
    fun x hx => h.spread.mem_out (hmem x hx),
    update f (.inCall k) (ms'.flatMap magItems), ?_⟩
  · unfold tcacheFreeMag
    rw [collectItems_ok hchain (hlength.symm ▸ hsize)]
    exact if_neg (not_not.mpr hlength)
  · refine h.storeCall ?_ ?_ rfl rfl rfl rfl rfl rfl rfl
      (show CallOk _ _ _ (.returned _) from ⟨ms', hms', rfl⟩)
    · apply h.spread.remove (p := .inCall k) _ fun q hq => update_of_ne hq ..
      rw [update_self, hitems]
      rfl
    · exact h.distinct.filter _

omit [DecidableEq κ] in
theorem TcInv.setMags (h : TcInv s f) (m : Int) :
    TcInv { s with magsAllocated := m } f := by
  refine { h with handle := fun k => ?_ }
  exact (h.handle k).frame rfl rfl rfl (fun _ _ => rfl)
    fun _ _ _ _ => ⟨rfl, rfl⟩

theorem TcInv.uncount {next : Option α} (h : TcInv s f)
    (hpc : s.pc k = .returned next) : TcInv (tcacheUncount s k next) f := by
  have hcall := (h.handle k).call
  rw [hpc] at hcall
  exact (h.setMags _).setPc (CallOk.reclaimAt hcall)

omit [DecidableEq κ] in
theorem TcInv.write [DecidableEq α] {x : α} {v w : Option α} (h : TcInv s f)
    (hx : x ∈ s.user ∨ x ∉ s.out) :
    TcInv { s with
      nextItem := update s.nextItem x v
      nextMag := update s.nextMag x w } f := by
  have hne : ∀ q : TcPlace κ, q ≠ .user → ∀ y ∈ f q,
      update s.nextItem x v y = s.nextItem y ∧
        update s.nextMag x w y = s.nextMag y := by
    intro q hq y hy
    have hyx : y ≠ x := by
      rcases hx with hx | hx
      · exact h.spread.ne hy (h.user ▸ hx) hq
      · rintro rfl
        exact hx (h.spread.mem_out hy)
    exact ⟨update_of_ne hyx .., update_of_ne hyx ..⟩
  refine ⟨h.spread, h.distinct, h.user, fun k => ?_, ?_⟩
  · refine (h.handle k).frame rfl rfl rfl (fun _ _ => rfl) fun q hq => ?_
    apply hne
    rintro rfl
    cases hq
  · exact h.shared.congr rfl rfl (hne .shared (by simp))

end Store

end Libut.Base
