import Libut.Hwalloc.Dataplane

/-!
What the calls of the dataplane loop are made of. `rx_send_to_runtime`, the park
commands and `cores_adjust_assignments` look at queues, mark a proc overloaded
or not, and call `cores_add_core`; a park command first parks its kthread. A
predicate that these moves keep is kept by every call (`CallInv`), so a property
of the allocator is proved once for each move.
-/

namespace Libut.Hwalloc

open Machine Base

variable {π : Type} [DecidableEq π] {s t u : Dataplane π} {th : ThreadRef π}
  {p : π} {tolerated : Fault → Prop} {client : π → Prop}
  {I : Dataplane π → Prop}

theorem dpNext_iff {a : DpAct π} :
    dpNext s a = some t ↔ dpStep s a = some (.ok t) := by
  unfold dpNext
  cases dpStep s a with
  | none => simp
  | some r =>
    cases r with
    | error f => simp [Except.toOption]
    | ok u => simp [Except.toOption]

section Quiet

structure SameAlloc (s t : Dataplane π) : Prop where
  procs : t.procs = s.procs
  lists : t.lists = s.lists
  threads : t.threads = s.threads
  poll : t.poll = s.poll
  cores : t.cores = s.cores

structure SameRecords (s t : Dataplane π) : Prop extends SameAlloc s t where
  refs : t.refs = s.refs
  wakes : t.wakes = s.wakes
  signalled : t.signalled = s.signalled

omit [DecidableEq π] in
theorem SameRecords.refl (s : Dataplane π) : SameRecords s s :=
  ⟨⟨rfl, rfl, rfl, rfl, rfl⟩, rfl, rfl, rfl⟩

omit [DecidableEq π] in
theorem SameRecords.trans (h : SameRecords s t) (h' : SameRecords t u) :
    SameRecords s u where
  procs := h'.procs.trans h.procs
  lists := h'.lists.trans h.lists
  threads := h'.threads.trans h.threads
  poll := h'.poll.trans h.poll
  cores := h'.cores.trans h.cores
  refs := h'.refs.trans h.refs
  wakes := h'.wakes.trans h.wakes
  signalled := h'.signalled.trans h.signalled

theorem checkThread_same (obs : Observed π) (acc : Dataplane π × Bool)
    (th : ThreadRef π) :
    SameRecords acc.1 (Dataplane.checkThread obs acc th).1 := by
  obtain ⟨s, congested⟩ := acc
  unfold Dataplane.checkThread
  simp only
  split_ifs <;> exact ⟨⟨rfl, rfl, rfl, rfl, rfl⟩, rfl, rfl, rfl⟩

theorem coresIsProcCongested_rel (obs : Observed π)
    {R : Dataplane π → Dataplane π → Prop} (hrefl : ∀ s, R s s)
    (htrans : ∀ {s t u}, R s t → R t u → R s u)
    (hlook : ∀ acc th, R acc.1 (Dataplane.checkThread obs acc th).1)
    (s : Dataplane π) (p : π) : R s (s.coresIsProcCongested p obs).1 := by
  have hloop : ∀ (l : List (ThreadRef π)) (acc : Dataplane π × Bool),
      R s acc.1 → R s (l.foldl (Dataplane.checkThread obs) acc).1 := by
    intro l
    induction l with
    | nil => exact fun acc hacc => hacc
    | cons th rest ih =>
      intro acc hacc
      apply ih
      exact htrans hacc (hlook acc th)
  exact hloop _ (s, false) (hrefl s)

theorem coresIsProcCongested_same (s : Dataplane π) (p : π) (obs : Observed π) :
    SameRecords s (s.coresIsProcCongested p obs).1 :=
  coresIsProcCongested_rel obs SameRecords.refl SameRecords.trans
    (checkThread_same obs) s p

end Quiet

section Calls

/-- The proc is below its guarantee, or there is an idle core: without one of
them a client is not given another core. -/
def Entitled (s : Dataplane π) (p : π) : Prop :=
  (s.threads.activeThreads p).length < s.procs.guaranteedCores p ∨
  0 < s.cores.nrAvailCores

/-- A predicate that is kept by each move of a call on behalf of a `client`,
where the faults of `cores_add_core` are among the `tolerated` ones. -/
structure CallInv (tolerated : Fault → Prop) (client : π → Prop)
    (I : Dataplane π → Prop) : Prop where
  overrun : tolerated .overrun
  quiet : ∀ {s t}, I s → SameRecords s t → I t
  overload : ∀ {s p}, I s → client p →
    I { s with lists := s.lists.procSetOverloaded p }
  unload : ∀ {s} p, I s → I { s with lists := s.lists.procClearOverloaded p }
  addCore : ∀ {s p}, I s → client p → Entitled s p →
    Meets tolerated (s.coresAddCore p) fun r => I r.1
  clients : ∀ {s}, I s → ∀ p ∈ s.procs.clients, client p
  listed : ∀ {s}, I s → ∀ p ∈ s.lists.overloadedProcs, client p

/-- `rx_send_to_runtime` adds a core for a proc that has none. -/
def RxAdds (s : Dataplane π) (p : π) : Prop :=
  s.threads.activeThreads p = [] ∧
  (0 < s.procs.guaranteedCores p ∨ 0 < s.cores.nrAvailCores)

omit [DecidableEq π] in
theorem RxAdds.entitled (h : RxAdds s p) : Entitled s p := by
  obtain ⟨hactive, hcores⟩ := h
  apply hcores.imp_left
  intro hguaranteed
  rw [hactive]
  exact hguaranteed

theorem rxqSend_same (s : Dataplane π) (th : ThreadRef π)
    (cmd payload : BitVec 64) (mem : LrpcMem) :
    SameRecords s (s.rxqSend th cmd payload mem).1 :=
  ⟨⟨rfl, rfl, rfl, rfl, rfl⟩, rfl, rfl, rfl⟩

/-- `rx_send_to_runtime` up to its last line: the thread whose receive queue
the message goes to. -/
def Dataplane.rxTarget (s : Dataplane π) (p : π) (hash : BitVec 32) :
    Except Fault (Dataplane π × Option (ThreadRef π)) :=
  let active := s.threads.activeThreads p
  match active[hash.toNat % active.length]? with
  | some th => .ok (s, some th)
  | none =>
    if 0 < s.procs.guaranteedCores p ∨ 0 < s.cores.nrAvailCores then
      s.coresAddCore p
    else
      match (s.threads.idleThreads p).head? with
      | none => .error .overrun
      | some th =>
        .ok ({ s with lists := s.lists.procSetOverloaded p }, some th)

def Dataplane.rxDeliver (cmd payload : BitVec 64) (mem : LrpcMem)
    (r : Dataplane π × Option (ThreadRef π)) : Dataplane π × Bool :=
  match r.2 with
  | none => (r.1, false)
  | some th => r.1.rxqSend th cmd payload mem

theorem rxSendToRuntime_eq (s : Dataplane π) (p : π) (hash : BitVec 32)
    (cmd payload : BitVec 64) (mem : LrpcMem) :
    s.rxSendToRuntime p hash cmd payload mem =
      (s.rxTarget p hash).map (Dataplane.rxDeliver cmd payload mem) := by
  unfold Dataplane.rxSendToRuntime Dataplane.rxTarget
  simp only
  cases (s.threads.activeThreads p)[hash.toNat %
      (s.threads.activeThreads p).length]? with
  | some th => rfl
  | none =>
    simp only
    split_ifs
    · cases s.coresAddCore p with
      | error f => rfl
      | ok r =>
        obtain ⟨t, th⟩ := r
        cases th <;> rfl
    · cases (s.threads.idleThreads p).head? <;> rfl

/-- What is asked of a predicate that choosing the receive queue keeps. -/
structure AddInv (tolerated : Fault → Prop) (client : π → Prop)
    (I : Dataplane π → Prop) : Prop where
  overrun : tolerated .overrun
  overload : ∀ {s p}, I s → client p →
    I { s with lists := s.lists.procSetOverloaded p }
  addCore : ∀ {s p}, I s → client p → Entitled s p →
    Meets tolerated (s.coresAddCore p) fun r => I r.1

theorem CallInv.adds (hI : CallInv tolerated client I) :
    AddInv tolerated client I :=
  ⟨hI.overrun, hI.overload, hI.addCore⟩

omit [DecidableEq π] in
theorem no_active_of_slot {hash : BitVec 32}
    (hnone : (s.threads.activeThreads p)[hash.toNat %
      (s.threads.activeThreads p).length]? = none) :
    s.threads.activeThreads p = [] := by
  by_contra hne
  have hlt := Nat.mod_lt hash.toNat (List.length_pos_of_ne_nil hne)
  exact absurd (List.getElem?_eq_none_iff.mp hnone) (not_le.mpr hlt)

theorem AddInv.rxTarget (hI : AddInv tolerated client I) (h : I s)
    (hp : client p) (hash : BitVec 32) :
    Meets tolerated (s.rxTarget p hash) fun r => I r.1 := by
  unfold Dataplane.rxTarget
  simp only
  split
  · exact h
  · rename_i hnone
    split_ifs with hcores
    · have hadds : RxAdds s p := ⟨no_active_of_slot hnone, hcores⟩
      exact hI.addCore h hp hadds.entitled
    · split
      · exact hI.overrun
      · exact hI.overload h hp

theorem CallInv.rxSendToRuntime (hI : CallInv tolerated client I) (h : I s)
    (hp : client p) (hash : BitVec 32) (cmd payload : BitVec 64)
    (mem : LrpcMem) :
    Meets tolerated (s.rxSendToRuntime p hash cmd payload mem)
      fun r => I r.1 := by
  rw [rxSendToRuntime_eq]
  apply Meets.map
  apply (hI.adds.rxTarget h hp hash).imp
  rintro ⟨t, th⟩ ht
  cases th with
  | none => exact ht
  | some th => exact hI.quiet ht (rxqSend_same ..)

theorem CallInv.cmdParked (hI : CallInv tolerated client I) (hp : client th.p)
    {wb : BitVec 32}
    (hpark : Meets tolerated (s.coresParkKthread th false wb) fun r => I r.1)
    (payload : BitVec 64) (mem : LrpcMem) :
    Meets tolerated (s.cmdParked th payload wb mem) I := by
  unfold Dataplane.cmdParked
  apply hpark.bind
  rintro ⟨t, stays⟩ ht
  simp only
  split_ifs
  · apply Meets.map
    refine hI.rxSendToRuntime (hI.quiet ht ?_) hp _ _ _ _
    exact ⟨⟨rfl, rfl, rfl, rfl, rfl⟩, rfl, rfl, rfl⟩
  · exact ht

theorem CallInv.cmdParkedLast (hI : CallInv tolerated client I) {wb : BitVec 32}
    (hpark : Meets tolerated (s.coresParkKthread th false wb) fun r => I r.1)
    (payload : BitVec 64) (now : BitVec 64) :
    Meets tolerated (s.cmdParkedLast th payload wb now) I := by
  unfold Dataplane.cmdParkedLast
  apply hpark.bind
  rintro ⟨t, stays⟩ ht
  simp only
  split_ifs
  · exact hI.quiet ht ⟨⟨rfl, rfl, rfl, rfl, rfl⟩, rfl, rfl, rfl⟩
  · exact ht

/-- The lists once the overloaded flag is cleared in
`cores_adjust_assignments`. -/
def adjustLists (s : Dataplane π) (p : π) : ProcLists π :=
  let running : BitVec 32 :=
    BitVec.ofNat 32 (s.threads.activeThreads p).length -
      s.cores.inflightPreempts p
  if 0 < running then s.lists.procClearOverloaded p else s.lists

/-- The start of a pass of `cores_adjust_assignments`: clear the overloaded
flag, look at the queues. -/
def adjustLook (obs : Observed π) (s : Dataplane π) (p : π) :
    Dataplane π × Bool :=
  Dataplane.coresIsProcCongested { s with lists := adjustLists s p } p obs

theorem adjustClient_eq (obs : Observed π) (s : Dataplane π) (p : π) :
    Dataplane.adjustClient obs s p =
      if (adjustLook obs s p).2 = false then .ok (adjustLook obs s p).1
      else if ((adjustLook obs s p).1.threads.activeThreads p).length <
          (adjustLook obs s p).1.procs.guaranteedCores p then
        ((adjustLook obs s p).1.coresAddCore p).map Prod.fst
      else
        .ok
          { (adjustLook obs s p).1 with
            lists := (adjustLook obs s p).1.lists.procSetOverloaded p } :=
  rfl

theorem CallInv.adjustLook (hI : CallInv tolerated client I) (h : I s)
    (obs : Observed π) (p : π) : I (adjustLook obs s p).1 := by
  have hlists : I { s with lists := adjustLists s p } := by
    unfold adjustLists
    simp only
    split_ifs
    · exact hI.unload p h
    · exact h
  exact hI.quiet hlists (coresIsProcCongested_same ..)

/-- What is asked of a predicate that `cores_adjust_assignments` keeps when it
observes `obs`. -/
structure AdjustInv (tolerated : Fault → Prop) (client : π → Prop)
    (obs : Observed π) (I : Dataplane π → Prop) : Prop
    extends AddInv tolerated client I where
  look : ∀ {s} p, I s → I (adjustLook obs s p).1
  clients : ∀ {s}, I s → ∀ p ∈ s.procs.clients, client p
  listed : ∀ {s}, I s → ∀ p ∈ s.lists.overloadedProcs, client p

theorem CallInv.adjusts (hI : CallInv tolerated client I) (obs : Observed π) :
    AdjustInv tolerated client obs I :=
  ⟨hI.adds, fun p h => hI.adjustLook h obs p, hI.clients, hI.listed⟩

variable {obs : Observed π}

section

variable (hI : AdjustInv tolerated client obs I)
include hI

theorem AdjustInv.adjustClient (h : I s) (hp : client p) :
    Meets tolerated (Dataplane.adjustClient obs s p) I := by
  have hlook := hI.look p h
  rw [adjustClient_eq]
  split_ifs with hcalm hshort
  · exact hlook
  · apply Meets.map
    exact hI.addCore hlook hp (.inl hshort)
  · exact hI.overload hlook hp

theorem AdjustInv.grantCores {l : List π} (h : I s) (hl : ∀ p ∈ l, client p) :
    Meets tolerated (s.grantCores l) I := by
  induction l generalizing s with
  | nil => exact h
  | cons p rest ih =>
    unfold Dataplane.grantCores
    split_ifs with hnone
    · exact h
    · have hidle : Entitled s p := .inr (Nat.pos_of_ne_zero hnone)
      apply (hI.addCore h (hl p List.mem_cons_self) hidle).bind
      rintro ⟨t, _⟩ ht
      exact ih ht fun q hq => hl q (List.mem_cons_of_mem p hq)

theorem AdjustInv.adjustClients {l : List π} (h : I s) (hl : ∀ p ∈ l, client p) :
    Meets tolerated (l.foldlM (Dataplane.adjustClient obs) s) I := by
  apply Meets.foldlM h
  intro t p hp ht
  exact hI.adjustClient ht (hl p hp)

theorem AdjustInv.coresAdjustAssignments (h : I s) :
    Meets tolerated (s.coresAdjustAssignments obs) I := by
  unfold Dataplane.coresAdjustAssignments
  apply (hI.adjustClients h (hI.clients h)).bind
  intro t ht
  exact hI.grantCores ht (hI.listed ht)

end

theorem CallInv.coresAdjustAssignments (hI : CallInv tolerated client I)
    (h : I s) (obs : Observed π) :
    Meets tolerated (s.coresAdjustAssignments obs) I :=
  (hI.adjusts obs).coresAdjustAssignments h

end Calls

section Adds

/-- The calls of `cores_add_core` that a call of the dataplane makes:
`AddsCore s a u p` when `a`, made in state `s`, calls it for `p` in state `u`. -/
inductive AddsCore (s : Dataplane π) : DpAct π → Dataplane π → π → Prop
  | add {p : π} : p ∈ s.procs.pending →
      s.procs.clients.length < hwallocdMaxProc →
      AddsCore s (.add p) ((s.pushClient p).resetProc p) p
  | rxSend {p : π} {hash : BitVec 32} {cmd payload : BitVec 64}
      {mem : LrpcMem} : p ∈ s.procs.clients → RxAdds s p →
      AddsCore s (.rxSend p hash cmd payload mem) s p
  | parked {th : ThreadRef π} {payload : BitVec 64} {wb : BitVec 32}
      {mem : LrpcMem} {t : Dataplane π} : s.Running th →
      s.coresParkKthread th false wb = .ok (t, true) → payload ≠ 0 →
      RxAdds t th.p →
      AddsCore s (.parked th payload wb mem)
        { t with
          nextThreadRr := Function.update t.nextThreadRr th.p
            (t.nextThreadRr th.p + 1) } th.p
  /-- The first loop of `cores_adjust_assignments` is at `p`. -/
  | guaranteed {obs : Observed π} {before after : List π} {p : π}
      {t : Dataplane π} : s.procs.clients = before ++ p :: after →
      before.foldlM (Dataplane.adjustClient obs) s = .ok t →
      (adjustLook obs t p).2 = true →
      ((adjustLook obs t p).1.threads.activeThreads p).length <
        (adjustLook obs t p).1.procs.guaranteedCores p →
      AddsCore s (.adjust obs) (adjustLook obs t p).1 p
  /-- The second loop is at `p`. -/
  | overloaded {obs : Observed π} {before after : List π} {p : π}
      {t u : Dataplane π} :
      s.procs.clients.foldlM (Dataplane.adjustClient obs) s = .ok t →
      t.lists.overloadedProcs = before ++ p :: after →
      t.grantCores before = .ok u → 0 < u.cores.nrAvailCores →
      AddsCore s (.adjust obs) u p

/-- Such a call is made in a state with the invariant, for a client that is
entitled to a core. The call for a new client is apart: it is made for a proc
that was no client before. -/
theorem CallInv.addsCore (hI : CallInv tolerated client I) (h : I s)
    {a : DpAct π} (ha : ∀ q, a ≠ .add q) (hcall : AddsCore s a u p)
    (hpark : ∀ th wb, s.Running th → client th.p ∧
      Meets tolerated (s.coresParkKthread th false wb) fun r => I r.1) :
    I u ∧ client p ∧ Entitled u p := by
  cases hcall with
  | add => exact absurd rfl (ha p)
  | rxSend hp hadds => exact ⟨h, hI.clients h p hp, hadds.entitled⟩
  | @parked th payload wb mem t hth hok _ hadds =>
    obtain ⟨hclient, hmeets⟩ := hpark th wb hth
    have ht : I t := hmeets.of_ok hok
    refine ⟨hI.quiet ht ?_, hclient, hadds.entitled⟩
    exact ⟨⟨rfl, rfl, rfl, rfl, rfl⟩, rfl, rfl, rfl⟩
  | @guaranteed obs before after p t hclients hbefore _ hshort =>
    have hall : ∀ q ∈ before ++ p :: after, client q := by
      rw [← hclients]
      exact hI.clients h
    have hfirst : ∀ q ∈ before, client q := fun q hq =>
      hall q (List.mem_append_left _ hq)
    have ht : I t := ((hI.adjusts obs).adjustClients h hfirst).of_ok hbefore
    exact ⟨hI.adjustLook ht obs p, hall p (by simp), .inl hshort⟩
  | @overloaded obs before after p t u hfirst hlist hbefore havail =>
    have ht : I t := ((hI.adjusts obs).adjustClients h
      (hI.clients h)).of_ok hfirst
    have hall : ∀ q ∈ before ++ p :: after, client q := by
      rw [← hlist]
      exact hI.listed ht
    have hpassed : ∀ q ∈ before, client q := fun q hq =>
      hall q (List.mem_append_left _ hq)
    exact ⟨((hI.adjusts obs).grantCores ht hpassed).of_ok hbefore, hall p (by simp),
      .inr havail⟩

end Adds

end Libut.Hwalloc
