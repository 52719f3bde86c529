import Libut.Hwalloc.Reservation

/-!
Who closes the descriptors of a client (`hwalloc/control.c`). The control plane
accepts a socket for each client and receives one eventfd for each of its
threads. A client that is registered keeps them until `control_remove_client`;
one that is turned down has them closed by `control_add_client`. If only the
message to the dataplane cannot be sent, `control_destroy_proc` closes the
eventfds and the error path of `control_add_client` closes them once more.

A descriptor is what the kernel handed out once. A number that it hands out
again after a close stands for another descriptor here.
-/

namespace Libut.Hwalloc.Descriptors

open Machine

variable {π : Type}

/-- A slot of `clients` and `clientfds`, with the `park_efd` of each thread. -/
structure Holder (π : Type) extends Client π where
  efds : List Nat

def Holder.descs (h : Holder π) : List Nat := h.efds ++ [h.fd]

structure Connection where
  /-- `accept` -/
  fd : Nat
  cred : Bool
  key : Bool
  len : Bool
  /-- `control_recv_fds`, `none` if it fails -/
  fds : Option (List Nat)
  reg : Registration
  few : ∀ l ∈ fds, l.length ≤ ncpu

/-- What `control_create_proc` is called with. -/
def Connection.registration (conn : Connection) (fds : List Nat) :
    Registration :=
  { conn.reg with nFds := BitVec.ofNat 32 fds.length }

structure State (π : Type) where
  nrGuaranteed : BitVec 32
  holders : List (Holder π)
  opened : List Nat
  closed : List Nat

def State.get (s : State π) (ds : List Nat) : State π :=
  { s with opened := s.opened ++ ds }

def State.close (s : State π) (ds : List Nat) : State π :=
  { s with closed := s.closed ++ ds }

def controlDestroyProc (s : State π) (h : Holder π) : State π :=
  { s.close h.efds with
    nrGuaranteed := Hwalloc.controlDestroyProc s.nrGuaranteed h.toClient }

/-- The proc that `control_create_proc` makes. -/
def newHolder (conn : Connection) (p : π) (fds : List Nat) : Holder π where
  fd := conn.fd
  p := p
  guaranteedCores := conn.reg.hdr.guaranteedCores
  removed := false
  efds := fds.take conn.reg.hdr.threadCount.toNat

/-- `control_add_client` from the call of `control_create_proc` on. -/
def controlAddReceived (total : BitVec 32) (s : State π) (conn : Connection)
    (p : π) (fds : List Nat) : State π :=
  match controlCreateProc total s.nrGuaranteed (conn.registration fds) with
  | (nr, false) =>
    (State.close { s with nrGuaranteed := nr } fds).close [conn.fd]
  | (nr, true) =>
    let s := { s with nrGuaranteed := nr }
    if !conn.reg.sent then
      ((controlDestroyProc s (newHolder conn p fds)).close fds).close
        [conn.fd]
    else { s with holders := s.holders ++ [newHolder conn p fds] }

def controlAddClient (total : BitVec 32) (s : State π) (conn : Connection)
    (p : π) : State π :=
  let s := s.get [conn.fd]
  if hwallocdMaxProc ≤ s.holders.length then s.close [conn.fd]
  else if !conn.cred then s.close [conn.fd]
  else if !conn.key then s.close [conn.fd]
  else if !conn.len then s.close [conn.fd]
  else
    match conn.fds with
    | none => s.close [conn.fd]
    | some fds =>
      let s := s.get fds
      if fds.length ≤ 0 then s.close [conn.fd]
      else controlAddReceived total s conn p fds

def controlInstructDataplaneToRemoveClient (s : State π) (fd : Nat) :
    State π :=
  match s.holders.findIdx? (·.fd == fd) with
  | none => s
  | some i =>
    match s.holders[i]? with
    | none => s
    | some h =>
      { s with
        nrGuaranteed := s.nrGuaranteed - h.guaranteedCores
        holders := s.holders.set i { h with removed := true } }

def controlRemoveClient [DecidableEq π] (s : State π) (p : π) : State π :=
  match s.holders.findIdx? (·.p == p) with
  | none => s
  | some i =>
    match s.holders[i]? with
    | none => s
    | some h =>
      { (controlDestroyProc s h).close [h.fd] with
        holders := swapRemove s.holders i }

/-- The connection gets as far as `control_recv_fds`. -/
def reaches (s : State π) (conn : Connection) : Prop :=
  s.holders.length < hwallocdMaxProc ∧
    (conn.cred && conn.key && conn.len) = true

instance (s : State π) (conn : Connection) : Decidable (reaches s conn) :=
  inferInstanceAs (Decidable (_ ∧ _))

/-- The descriptors that a call of `control_add_client` gets. -/
def received (s : State π) (conn : Connection) : List Nat :=
  if reaches s conn then conn.fd :: conn.fds.getD [] else [conn.fd]

inductive Act (π : Type) where
  | addClient (conn : Connection) (p : π)
  | hangUp (fd : Nat)
  | removeClient (p : π)

def fresh (s : State π) (conn : Connection) : Prop :=
  (s.opened ++ conn.fd :: conn.fds.getD []).Nodup

instance (s : State π) (conn : Connection) : Decidable (fresh s conn) :=
  inferInstanceAs (Decidable (List.Nodup _))

def readset (s : State π) : List Nat :=
  (s.holders.filter fun h => !h.removed).map fun h => h.fd

def next [DecidableEq π] (total : BitVec 32) (s : State π) :
    Act π → Option (State π)
  | .addClient conn p =>
    if fresh s conn then some (controlAddClient total s conn p) else none
  | .hangUp fd =>
    if fd ∈ readset s then
      some (controlInstructDataplaneToRemoveClient s fd)
    else none
  | .removeClient p => some (controlRemoveClient s p)

def State.owned (s : State π) : List Nat := s.holders.flatMap Holder.descs

structure State.Settled (s : State π) : Prop where
  once : s.opened.Nodup
  split : (s.closed ++ s.owned).Perm s.opened

/-- `control_create_proc` is called and makes a proc. -/
def created (total : BitVec 32) (s : State π) (conn : Connection) : Prop :=
  reaches s conn ∧ ∃ fds ∈ conn.fds, fds ≠ [] ∧
    (controlCreateProc total s.nrGuaranteed (conn.registration fds)).2 = true

variable {total : BitVec 32} {s t : State π} {conn : Connection}

inductive AddCase (total : BitVec 32) (s : State π) (conn : Connection) :
    State π → Prop
  | refused {nr : BitVec 32} {l : List Nat}
      (hnot : ¬ created total s conn) (hl : l.Perm (received s conn)) :
      AddCase total s conn
        { nrGuaranteed := nr, holders := s.holders
          opened := s.opened ++ received s conn, closed := s.closed ++ l }
  | registered {nr : BitVec 32} {h : Holder π}
      (hsent : conn.reg.sent = true) (hh : h.descs.Perm (received s conn)) :
      AddCase total s conn
        { nrGuaranteed := nr, holders := s.holders ++ [h]
          opened := s.opened ++ received s conn, closed := s.closed }
  | twice {nr : BitVec 32} {l : List Nat} (hmade : created total s conn)
      (hsent : conn.reg.sent = false)
      (hlong : (received s conn).length < l.length) :
      AddCase total s conn
        { nrGuaranteed := nr, holders := s.holders
          opened := s.opened ++ received s conn, closed := s.closed ++ l }

@[simp]
theorem get_holders (s : State π) (ds : List Nat) :
    (s.get ds).holders = s.holders := rfl

theorem controlAddClient_eq (total : BitVec 32) (s : State π)
    (conn : Connection) (p : π) :
    controlAddClient total s conn p =
      if reaches s conn then
        match conn.fds with
        | none => (s.get [conn.fd]).close [conn.fd]
        | some fds =>
          if fds.length ≤ 0 then
            ((s.get [conn.fd]).get fds).close [conn.fd]
          else
            controlAddReceived total ((s.get [conn.fd]).get fds) conn p fds
      else (s.get [conn.fd]).close [conn.fd] := by
  simp only [controlAddClient, get_holders]
  by_cases hgo : reaches s conn
  · obtain ⟨hroom, hreads⟩ := id hgo
    simp only [Bool.and_eq_true] at hreads
    simp [hgo, Nat.not_le_of_lt hroom, hreads]
  · simp only [hgo, if_false]
    split
    · rfl
    · rename_i hroom
      have hreads : ¬ (conn.cred && conn.key && conn.len) = true :=
        fun h => hgo ⟨Nat.lt_of_not_le hroom, h⟩
      split
      · rfl
      · split
        · rfl
        · split
          · rfl
          · simp_all

section Control

/-- The state of `control.c` without the descriptors. -/
def State.control (s : State π) : Control π :=
  ⟨s.nrGuaranteed, s.holders.map Holder.toClient⟩

theorem control_addReceived (total : BitVec 32) (s : State π) (p : π)
    {fds : List Nat} (hfds : fds ∈ conn.fds) (hne : fds ≠ [])
    (hroom : s.holders.length < hwallocdMaxProc) :
    (controlAddReceived total s conn p fds).control =
      Hwalloc.controlAddClient total s.control conn.fd p
        (conn.registration fds) := by
  have hsome : ¬ (conn.registration fds).nFds.sle 0 = true := by
    have hfew : fds.length ≤ ncpu := conn.few fds hfds
    have hncpu : ncpu = 256 := rfl
    have hcount : (conn.registration fds).nFds.toNat = fds.length := by
      rw [Connection.registration, BitVec.toNat_ofNat,
        Nat.mod_eq_of_lt (by omega)]
    rw [Bool.not_eq_true]
    apply sle_zero_eq_false
    · intro hzero
      rw [hzero] at hcount
      exact hne (List.eq_nil_of_length_eq_zero hcount.symm)
    · rwa [hcount]
  have hlength : ¬ hwallocdMaxProc ≤ s.control.clients.length := by
    rw [State.control, List.length_map]
    exact Nat.not_le_of_lt hroom
  unfold controlAddReceived Hwalloc.controlAddClient
  rw [if_neg hlength, if_neg hsome]
  have hnr : s.control.nrGuaranteed = s.nrGuaranteed := rfl
  rw [hnr]
  cases controlCreateProc total s.nrGuaranteed (conn.registration fds) with
  | mk nr made =>
    cases made with
    | false => rfl
    | true =>
      have hsent : (conn.registration fds).sent = conn.reg.sent := rfl
      simp only [hsent]
      cases conn.reg.sent with
      | false => rfl
      | true =>
        simp only [Bool.not_true, Bool.false_eq_true, if_false,
          State.control, List.map_append]
        rfl

/-- Without the descriptors, this is the registration that admission is
about. -/
theorem control_addClient (total : BitVec 32) (s : State π) (conn : Connection)
    (p : π) :
    (controlAddClient total s conn p).control = s.control ∨
      ∃ fds ∈ conn.fds, (controlAddClient total s conn p).control =
        Hwalloc.controlAddClient total s.control conn.fd p
          (conn.registration fds) := by
  rw [controlAddClient_eq]
  split
  · rename_i hgo
    cases hfds : conn.fds with
    | none => exact .inl rfl
    | some fds =>
      dsimp only
      split
      · exact .inl rfl
      · rename_i hpos
        have hne : fds ≠ [] := by
          rintro rfl
          exact hpos (Nat.le_refl 0)
        exact .inr ⟨fds, rfl, control_addReceived total
          ((s.get [conn.fd]).get fds) p hfds hne hgo.1⟩
  · exact .inl rfl

theorem control_hangUp (s : State π) (fd : Nat) :
    (controlInstructDataplaneToRemoveClient s fd).control =
      Hwalloc.controlInstructDataplaneToRemoveClient s.control fd := by
  unfold controlInstructDataplaneToRemoveClient
    Hwalloc.controlInstructDataplaneToRemoveClient State.control
  rw [List.findIdx?_map]
  change _ = match s.holders.findIdx? (·.fd == fd) with | none => _ | some i => _
  cases s.holders.findIdx? (·.fd == fd) with
  | none => rfl
  | some i =>
    simp only [List.getElem?_map]
    cases s.holders[i]? with
    | none => rfl
    | some h => simp [List.map_set]

theorem control_removeClient [DecidableEq π] (s : State π) (p : π) :
    (controlRemoveClient s p).control =
      Hwalloc.controlRemoveClient s.control p := by
  unfold controlRemoveClient Hwalloc.controlRemoveClient State.control
  rw [List.findIdx?_map]
  change _ = match s.holders.findIdx? (·.p == p) with | none => _ | some i => _
  cases s.holders.findIdx? (·.p == p) with
  | none => rfl
  | some i =>
    simp only [List.getElem?_map]
    cases s.holders[i]? with
    | none => rfl
    | some h =>
      simp only [Option.map_some, swapRemove_map]
      rfl

end Control

section Settled

theorem State.Settled.hangUp (h : s.Settled) (fd : Nat) :
    (controlInstructDataplaneToRemoveClient s fd).Settled := by
  unfold controlInstructDataplaneToRemoveClient
  split
  · exact h
  · split
    · exact h
    · rename_i i _ _ holder hget
      have hsame : (s.holders.set i { holder with removed := true }).map
          Holder.descs = s.holders.map Holder.descs :=
        map_set_of_eq hget rfl
      refine ⟨h.once, ?_⟩
      change (s.closed ++ (s.holders.set i _).flatMap Holder.descs).Perm _
      rw [List.flatMap_def, hsame, ← List.flatMap_def]
      exact h.split

theorem controlRemoveClient_cases [DecidableEq π] (s : State π) (p : π) :
    controlRemoveClient s p = s ∨ ∃ h ∈ s.holders, h.p = p ∧
      (controlRemoveClient s p).closed = s.closed ++ h.descs ∧
      (controlRemoveClient s p).opened = s.opened ∧
      (h :: (controlRemoveClient s p).holders).Perm s.holders := by
  unfold controlRemoveClient
  split
  · exact .inl rfl
  · rename_i i hfind
    split
    · exact .inl rfl
    · rename_i holder hget
      refine .inr ⟨holder, List.mem_of_getElem? hget, ?_, ?_, rfl,
        swapRemove_perm hget⟩
      · obtain ⟨hi, hfound, _⟩ := List.findIdx?_eq_some_iff_getElem.mp hfind
        obtain ⟨_, hval⟩ := List.getElem?_eq_some_iff.mp hget
        rw [hval] at hfound
        simpa using hfound
      · exact List.append_assoc ..

theorem State.Settled.removeClient [DecidableEq π] (h : s.Settled) (p : π) :
    (controlRemoveClient s p).Settled := by
  rcases controlRemoveClient_cases s p with
    hsame | ⟨holder, -, -, hclosed, hopened, hholders⟩
  · rw [hsame]
    exact h
  · constructor
    · rw [hopened]
      exact h.once
    · rw [hclosed, hopened, List.append_assoc]
      refine List.Perm.trans ?_ h.split
      apply List.Perm.append_left
      exact hholders.flatMap_right Holder.descs

theorem State.Settled.count (h : s.Settled) {d : Nat} (hd : d ∈ s.opened) :
    s.closed.count d = if d ∈ s.owned then 0 else 1 := by
  have hone : s.opened.count d = 1 := List.count_eq_one_of_mem h.once hd
  have hsum := h.split.count_eq d
  rw [List.count_append, hone] at hsum
  split
  · rename_i howned
    have hpos := List.count_pos_iff.mpr howned
    omega
  · rename_i howned
    have hzero := List.count_eq_zero_of_not_mem howned
    omega

end Settled

/-- How a call of `control_add_client` can end, for the descriptors it got:
the client has them and none is closed, or each is closed by the call. -/
def AddEnds (s t : State π) (ds : List Nat) : Prop :=
  (∃ h : Holder π, t.holders = s.holders ++ [h] ∧ h.descs.Perm ds ∧
    t.closed = s.closed) ∨
  t.holders = s.holders ∧ ∃ l, l.Perm ds ∧ t.closed = s.closed ++ l

theorem AddCase.ends (hcase : AddCase total s conn t)
    (hok : created total s conn → conn.reg.sent = true) :
    AddEnds s t (received s conn) := by
  cases hcase with
  | refused hnot hl => exact .inr ⟨rfl, _, hl, rfl⟩
  | registered hsent hh => exact .inl ⟨_, rfl, hh, rfl⟩
  | twice hmade hsent hlong =>
    rw [hok hmade] at hsent
    cases hsent

section Runs

end Runs

end Libut.Hwalloc.Descriptors
