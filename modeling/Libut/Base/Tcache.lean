import Libut.Machine.Chain
import Libut.Machine.Checked
import Libut.Machine.System

/-!
The thread-local cache (`base/tcache.c`, `inc/base/tcache.h`). Free items are
kept in magazines. Each thread has one that it takes items from and puts them
into and, behind it, one that is full or not there; full magazines are also kept
in a pool that all threads share. Both the items of a magazine and the magazines
of the pool are linked through the free items themselves.

The fast paths and what a thread does to its own magazines are one step with
the locked section they follow. Between the steps of a thread come the calls to
the backing store and, apart from them, the updates of `mags_allocated`, so
that other threads can run there. For the statements the model keeps the items
that users have, those that were taken from the backing store and not returned,
and how many of each there were.
-/

namespace Libut.Base

open Function Machine

def tcacheMaxMagSize : Nat := 64

structure TcachePerthread (α : Type) where
  rounds : Nat
  capacity : Nat
  loaded : Option α
  previous : Option α

/-- Where a thread is in its call. -/
inductive TcPc (α : Type)
  | idle
  /-- In `__tcache_alloc`, about to call `ops->alloc`. -/
  | needMag
  /-- In `tcache_alloc_mag`, with the items that `ops->alloc` returned. -/
  | linking (items : List α)
  /-- In the loop of `tcache_reclaim`, at the magazine `hdr`. -/
  | reclaiming (hdr : α)
  /-- In `tcache_free_mag`, after `ops->free`; `next` is the next magazine. -/
  | returned (next : Option α)
  deriving DecidableEq

structure TcacheState (κ α : Type) where
  magSize : Nat
  magsAllocated : Int
  sharedMags : Option α
  nextItem : α → Option α
  nextMag : α → Option α
  ltc : κ → TcachePerthread α
  pc : κ → TcPc α
  user : List α
  out : List α
  taken : Nat
  given : Nat

inductive TcFault
  | nullPointer
  | assertion
  /-- More items than `items` has room for. -/
  | overrun
  deriving DecidableEq, Repr

variable {κ α : Type} [DecidableEq κ]

def tcacheInitPerthread (magSize : Nat) : TcachePerthread α where
  rounds := 0
  capacity := magSize
  loaded := none
  previous := none

namespace TcacheState

def setLtc (s : TcacheState κ α) (k : κ) (l : TcachePerthread α) :
    TcacheState κ α :=
  { s with ltc := update s.ltc k l }

def setPc (s : TcacheState κ α) (k : κ) (p : TcPc α) : TcacheState κ α :=
  { s with pc := update s.pc k p }

/-- The first item of the loaded magazine is returned to the user, and `rounds`
is set. -/
def takeItem (s : TcacheState κ α) (k : κ) (rounds : Nat) (item : α) :
    TcacheState κ α :=
  { s with user := item :: s.user }.setLtc k
    { s.ltc k with rounds := rounds, loaded := s.nextItem item }

def putItem [DecidableEq α] (s : TcacheState κ α) (k : κ) (item : α) :
    TcacheState κ α :=
  { s with
    nextItem := update s.nextItem item (s.ltc k).loaded
    user := s.user.erase item }.setLtc k
      { s.ltc k with rounds := (s.ltc k).rounds + 1, loaded := some item }

end TcacheState

variable [DecidableEq α]

/-- What a call of `tcache_alloc` returns, if it returns in this step. -/
abbrev TcAnswer (α : Type) := Option (Option α)

/-- The end of `__tcache_alloc`, after a magazine was assigned to `loaded`. -/
def tcacheReload (s : TcacheState κ α) (k : κ) :
    Except TcFault (TcacheState κ α × TcAnswer α) :=
  match (s.ltc k).loaded with
  | none => .error .nullPointer
  | some item =>
    .ok (s.takeItem k ((s.ltc k).capacity - 1) item, some (some item))

/-- `__tcache_alloc` up to the call of `tcache_alloc_mag`. -/
def tcacheAllocSlow (s : TcacheState κ α) (k : κ) :
    Except TcFault (TcacheState κ α × TcAnswer α) :=
  let l := s.ltc k
  if l.rounds ≠ 0 ∨ l.loaded ≠ none then .error .assertion
  else
    match l.previous with
    | some mag =>
      tcacheReload
        (s.setLtc k { l with loaded := some mag, previous := none }) k
    | none =>
      match s.sharedMags with
      | some mag =>
        tcacheReload
          ({ s with sharedMags := s.nextMag mag }.setLtc k
            { l with loaded := some mag }) k
      | none => .ok (s.setPc k .needMag, none)

/-- `tcache_alloc` up to the call of `tcache_alloc_mag`. -/
def tcacheAlloc (s : TcacheState κ α) (k : κ) :
    Except TcFault (TcacheState κ α × TcAnswer α) :=
  if (s.ltc k).rounds = 0 then tcacheAllocSlow s k
  else
    match (s.ltc k).loaded with
    | none => .error .nullPointer
    | some item =>
      .ok (s.takeItem k ((s.ltc k).rounds - 1) item, some (some item))

/-- `ops->alloc` fails, or returns items. -/
def tcacheFetch (s : TcacheState κ α) (k : κ) :
    Option (List α) → TcacheState κ α × TcAnswer α
  | none => (s.setPc k .idle, some none)
  | some items =>
    ({ s with
      out := items ++ s.out, taken := s.taken + items.length }.setPc k
        (.linking items), none)

/-- The loop of `tcache_alloc_mag`, which ends with `*pos = NULL`. -/
def linkItems (nextItem : α → Option α) : List α → α → Option α
  | [] => nextItem
  | [a] => update nextItem a none
  | a :: b :: rest =>
    linkItems (update nextItem a (some b)) (b :: rest)

/-- The rest of `tcache_alloc_mag` and of `__tcache_alloc`. -/
def tcacheLoad (s : TcacheState κ α) (k : κ) (items : List α) :
    Except TcFault (TcacheState κ α × TcAnswer α) :=
  tcacheReload
    (({ s with
      nextItem := linkItems s.nextItem items
      magsAllocated := s.magsAllocated + 1 }.setLtc k
        { s.ltc k with loaded := items.head? }).setPc k .idle) k

/-- The end of `__tcache_free`, which starts a magazine with the item. -/
def tcacheStartMag (s : TcacheState κ α) (k : κ) (item : α) :
    TcacheState κ α :=
  { s with
    nextItem := update s.nextItem item none
    user := s.user.erase item }.setLtc k
      { s.ltc k with rounds := 1, loaded := some item }

/-- `__tcache_free`. -/
def tcacheFreeSlow (s : TcacheState κ α) (k : κ) (item : α) :
    Except TcFault (TcacheState κ α) :=
  let l := s.ltc k
  if l.rounds ≠ l.capacity ∨ l.loaded = none then .error .assertion
  else
    match l.previous with
    | none =>
      .ok (tcacheStartMag (s.setLtc k { l with previous := l.loaded }) k item)
    | some mag =>
      .ok (tcacheStartMag ({ s with
          nextMag := update s.nextMag mag s.sharedMags
          sharedMags := some mag }.setLtc k
            { l with previous := l.loaded }) k item)

def tcacheFree (s : TcacheState κ α) (k : κ) (item : α) :
    Except TcFault (TcacheState κ α) :=
  if (s.ltc k).capacity ≤ (s.ltc k).rounds then tcacheFreeSlow s k item
  else .ok (s.putItem k item)

/-- The loop of `tcache_free_mag`, with room for `room` more items. -/
def collectItems (nextItem : α → Option α) :
    Nat → Option α → Except TcFault (List α)
  | _, none => .ok []
  | 0, some _ => .error .overrun
  | room + 1, some hdr => do
      let rest ← collectItems nextItem room (nextItem hdr)
      .ok (hdr :: rest)

/-- The loop of `tcache_reclaim` goes on at `next`. -/
def reclaimAt : Option α → TcPc α
  | none => .idle
  | some hdr => .reclaiming hdr

/-- `tcache_reclaim` up to its loop. -/
def tcacheReclaim (s : TcacheState κ α) (k : κ) : TcacheState κ α :=
  { s with sharedMags := none }.setPc k (reclaimAt s.sharedMags)

/-- A round of the loop of `tcache_reclaim` up to `ops->free`. -/
def tcacheFreeMag (s : TcacheState κ α) (k : κ) (hdr : α) :
    Except TcFault (TcacheState κ α) := do
  let items ← collectItems s.nextItem tcacheMaxMagSize (some hdr)
  if items.length ≠ s.magSize then .error .assertion
  else
    .ok ({ s with
      out := s.out.filter (· ∉ items)
      given := s.given + items.length }.setPc k (.returned (s.nextMag hdr)))

def tcacheUncount (s : TcacheState κ α) (k : κ) (next : Option α) :
    TcacheState κ α :=
  { s with magsAllocated := s.magsAllocated - 1 }.setPc k (reclaimAt next)

inductive TcAct (κ α : Type)
  | alloc (k : κ)
  /-- What `ops->alloc` returns. -/
  | fetch (k : κ) (items : Option (List α))
  | load (k : κ)
  | free (k : κ) (item : α)
  | reclaim (k : κ)
  | freeMag (k : κ)
  | uncount (k : κ)
  /-- A store to an item that is in use or not taken from the store. -/
  | write (x : α) (nextItem nextMag : Option α)

/-- The backing store returns `mag_size` items that nobody has. -/
def TcacheState.storeOk (s : TcacheState κ α) (items : Option (List α)) :
    Prop :=
  ∀ l ∈ items, l.length = s.magSize ∧ l.Nodup ∧ ∀ x ∈ l, x ∉ s.out

instance (s : TcacheState κ α) (items : Option (List α)) :
    Decidable (s.storeOk items) :=
  inferInstanceAs (Decidable
    (∀ l ∈ items, l.length = s.magSize ∧ l.Nodup ∧ ∀ x ∈ l, x ∉ s.out))

/-- A step, `none` if it is not enabled. -/
def tcStep (s : TcacheState κ α) : TcAct κ α →
    Option (Except TcFault (TcacheState κ α × TcAnswer α))
  | .alloc k => if s.pc k = .idle then some (tcacheAlloc s k) else none
  | .fetch k items =>
    if s.pc k = .needMag ∧ s.storeOk items then
      some (.ok (tcacheFetch s k items))
    else none
  | .load k =>
    match s.pc k with
    | .linking items => some (tcacheLoad s k items)
    | _ => none
  | .free k item =>
    if s.pc k = .idle ∧ item ∈ s.user then
      some ((tcacheFree s k item).map (·, none))
    else none
  | .reclaim k =>
    if s.pc k = .idle then some (.ok (tcacheReclaim s k, none)) else none
  | .freeMag k =>
    match s.pc k with
    | .reclaiming hdr => some ((tcacheFreeMag s k hdr).map (·, none))
    | _ => none
  | .uncount k =>
    match s.pc k with
    | .returned next => some (.ok (tcacheUncount s k next, none))
    | _ => none
  | .write x nextItem nextMag =>
    if x ∈ s.user ∨ x ∉ s.out then
      some (.ok ({ s with
        nextItem := update s.nextItem x nextItem
        nextMag := update s.nextMag x nextMag }, none))
    else none

/-- `tcache_create` and `tcache_init_perthread` for every thread. -/
def tcacheStart (magSize : Nat) (s : TcacheState κ α) : Prop :=
  s.magSize = magSize ∧ s.magsAllocated = 0 ∧ s.sharedMags = none ∧
  (∀ k, s.ltc k = tcacheInitPerthread magSize ∧ s.pc k = .idle) ∧
  s.user = [] ∧ s.out = [] ∧ s.taken = 0 ∧ s.given = 0

def tcacheSystem (κ α : Type) [DecidableEq κ] [DecidableEq α] (magSize : Nat) :
    System (TcacheState κ α) (TcAct κ α) where
  init := tcacheStart magSize
  next s a :=
    match tcStep s a with
    | some (.ok (t, _)) => some t
    | _ => none

end Libut.Base
