import Libut.Hwalloc.Cores
import Libut.Hwalloc.Shm
import Libut.Machine.SwapRemove
import Libut.Machine.System

/-!
Admission of clients by the control plane (`hwalloc/control.c`). A client asks
for `guaranteed_cores`; the control plane keeps the running total of the
guarantees in `nr_guaranteed` and turns down a client that would raise it above
the number of cores. `nr_guaranteed` is an `int` and the guarantee an
`unsigned int`, so the sum, the comparison and both updates are modulo
`2 ^ 32`.

A client that asks for nearly `2 ^ 32` cores makes the sum wrap and is
admitted. As long as no registration does that, `nr_guaranteed` is at least
what the live clients were promised; it may be more, since a registration that
fails after the check does not give its share back.
-/

namespace Libut.Hwalloc

open Machine

/-- `CONTROL_HDR_MAGIC`, "iok:". -/
def controlHdrMagic : BitVec 32 := 0x696f6b3a

/-- `sizeof(struct control_hdr)`. -/
def controlHdrSize : BitVec 64 := 96

/-- `sizeof(struct q_ptrs)`. -/
def qPtrsSize : BitVec 64 := 12

structure ThreadSpec where
  rxq : QueueSpec
  txq : QueueSpec
  qPtrs : BitVec 64

structure ControlHdr where
  magic : BitVec 32
  threadCount : BitVec 32
  guaranteedCores : BitVec 32

/-- A registration: what the client sends and has in its shared memory, and
what the kernel, the allocator and the channel to the dataplane answer. -/
structure Registration where
  len : BitVec 64
  nFds : BitVec 32
  /-- `mem_map_shm`, `none` for `MAP_FAILED` -/
  base : Option (BitVec 64)
  hdr : ControlHdr
  threads : Nat → ThreadSpec
  procAlloc : Bool
  threadsAlloc : Bool
  pagesFound : Bool
  sent : Bool

/-- A slot of `clients` and `clientfds`, with the proc it points to. -/
structure Client (π : Type) where
  fd : Nat
  p : π
  guaranteedCores : BitVec 32
  removed : Bool
  deriving DecidableEq

structure Control (π : Type) where
  nrGuaranteed : BitVec 32
  clients : List (Client π)

variable {π : Type}

/-- The body of the loop over the threads: attach both queues and find the
queue pointers. -/
def attachThread (reg : ShmRegion) (spec : ThreadSpec) : Bool :=
  (shmInitLrpcOut reg spec.rxq).isOk && (shmInitLrpcIn reg spec.txq).isOk &&
    shmptrToPtr reg spec.qPtrs qPtrsSize != 0

/-- The part of `control_create_proc` after the guarantee is counted. Each
failure frees what was allocated and returns `NULL`. -/
def buildProc (reg : ShmRegion) (r : Registration) : Bool :=
  r.procAlloc && r.threadsAlloc &&
    (List.range r.hdr.threadCount.toNat).all
      (fun i => attachThread reg (r.threads i)) &&
    r.pagesFound

/-- The checks of `control_create_proc` before the one on the guarantee. -/
def hdrOk (r : Registration) : Bool :=
  r.hdr.magic == controlHdrMagic &&
    !(ncpu < r.hdr.threadCount.toNat || r.hdr.threadCount == 0 ||
      r.hdr.threadCount != r.nFds)

/-- `control_create_proc`: the new `nr_guaranteed` and whether there is a proc. -/
def controlCreateProc (total nrGuaranteed : BitVec 32) (r : Registration) :
    BitVec 32 × Bool :=
  if r.len < controlHdrSize then (nrGuaranteed, false)
  else
    match r.base with
    | none => (nrGuaranteed, false)
    | some base =>
      if !hdrOk r then (nrGuaranteed, false)
      else if total < r.hdr.guaranteedCores + nrGuaranteed then
        (nrGuaranteed, false)
      else
        (nrGuaranteed + r.hdr.guaranteedCores, buildProc ⟨base, r.len⟩ r)

/-- `control_destroy_proc`, as far as `nr_guaranteed` goes. -/
def controlDestroyProc (nrGuaranteed : BitVec 32) (c : Client π) : BitVec 32 :=
  if !c.removed then nrGuaranteed - c.guaranteedCores else nrGuaranteed

/-- `control_add_client`, once the client's key, length and descriptors have
been read. -/
def controlAddClient (total : BitVec 32) (s : Control π) (fd : Nat) (p : π)
    (r : Registration) : Control π :=
  if hwallocdMaxProc ≤ s.clients.length then s
  else if r.nFds.sle 0 then s
  else
    let c : Client π := ⟨fd, p, r.hdr.guaranteedCores, false⟩
    match controlCreateProc total s.nrGuaranteed r with
    | (nr, false) => { s with nrGuaranteed := nr }
    | (nr, true) =>
      if !r.sent then { s with nrGuaranteed := controlDestroyProc nr c }
      else { nrGuaranteed := nr, clients := s.clients ++ [c] }

/-- `control_instruct_dataplane_to_remove_client`. An unknown descriptor only
warns. -/
def controlInstructDataplaneToRemoveClient (s : Control π) (fd : Nat) :
    Control π :=
  match s.clients.findIdx? (·.fd == fd) with
  | none => s
  | some i =>
    match s.clients[i]? with
    | none => s
    | some c =>
      { nrGuaranteed := s.nrGuaranteed - c.guaranteedCores
        clients := s.clients.set i { c with removed := true } }

/-- `control_remove_client`: the last client moves into the hole. -/
def controlRemoveClient [DecidableEq π] (s : Control π) (p : π) : Control π :=
  match s.clients.findIdx? (·.p == p) with
  | none => s
  | some i =>
    match s.clients[i]? with
    | none => s
    | some c =>
      { nrGuaranteed := controlDestroyProc s.nrGuaranteed c
        clients := swapRemove s.clients i }

/-- The descriptors `control_loop` waits for besides its own: those of the
clients that are not marked removed. -/
def Control.readset (s : Control π) : List Nat :=
  (s.clients.filter fun c => !c.removed).map Client.fd

inductive AdmissionAct (π : Type) where
  /-- A connection is accepted as `fd`, and the proc is allocated at `p`. -/
  | addClient (fd : Nat) (p : π) (r : Registration)
  /-- A connection is ready, which means that the client is gone. -/
  | hangUp (fd : Nat)
  /-- `CONTROLPLANE_REMOVE_CLIENT` arrives from the dataplane. -/
  | removeClient (p : π)

/-- One iteration of a loop of `control_loop`. The kernel hands out
descriptors that are not in use. -/
def admissionNext [DecidableEq π] (total : BitVec 32) (s : Control π) :
    AdmissionAct π → Option (Control π)
  | .addClient fd p r =>
    if fd ∈ s.clients.map Client.fd then none
    else some (controlAddClient total s fd p r)
  | .hangUp fd =>
    if fd ∈ s.readset then some (controlInstructDataplaneToRemoveClient s fd)
    else none
  | .removeClient p => some (controlRemoveClient s p)

def admissionSystem (π : Type) [DecidableEq π] (total : BitVec 32) :
    System (Control π) (AdmissionAct π) where
  init s := s.nrGuaranteed = 0 ∧ s.clients = []
  next := admissionNext total

def guaranteedTotal (clients : List (Client π)) : Nat :=
  ((clients.filter fun c => !c.removed).map
    fun c => c.guaranteedCores.toNat).sum

/-- The registration gets as far as `nr_guaranteed += ...`. -/
def counted (total nrGuaranteed : BitVec 32) (r : Registration) : Bool :=
  !(r.len < controlHdrSize) && r.base.isSome && hdrOk r &&
    !(total < r.hdr.guaranteedCores + nrGuaranteed)

def built (r : Registration) : Bool :=
  match r.base with
  | none => false
  | some base => buildProc ⟨base, r.len⟩ r

/-- The sum of the check does not wrap for a registration that is counted,
except if the count is taken back because the client cannot be announced. -/
def noWrap (total : BitVec 32) (s : Control π) : AdmissionAct π → Prop
  | .addClient _ _ r =>
    s.clients.length < hwallocdMaxProc →
    counted total s.nrGuaranteed r = true →
    (built r = true → r.sent = true) →
    r.hdr.guaranteedCores.toNat + s.nrGuaranteed.toNat < 2 ^ 32
  | .hangUp _ => True
  | .removeClient _ => True

instance (total : BitVec 32) (s : Control π) (a : AdmissionAct π) :
    Decidable (noWrap total s a) :=
  match a with
  | .addClient _ _ _ => inferInstanceAs (Decidable (_ → _ → _ → _))
  | .hangUp _ => isTrue trivial
  | .removeClient _ => isTrue trivial

section Total

def Client.share (c : Client π) : Nat :=
  if c.removed then 0 else c.guaranteedCores.toNat

@[simp]
theorem share_removed (c : Client π) :
    ({ c with removed := true } : Client π).share = 0 := rfl

theorem guaranteedTotal_cons (c : Client π) (l : List (Client π)) :
    guaranteedTotal (c :: l) = c.share + guaranteedTotal l := by
  unfold guaranteedTotal Client.share
  cases hremoved : c.removed <;> simp [hremoved]

theorem guaranteedTotal_perm {l l' : List (Client π)} (h : l.Perm l') :
    guaranteedTotal l = guaranteedTotal l' :=
  ((h.filter _).map _).sum_eq

theorem guaranteedTotal_concat (l : List (Client π)) (c : Client π) :
    guaranteedTotal (l ++ [c]) = c.share + guaranteedTotal l := by
  rw [guaranteedTotal_perm (List.perm_append_singleton c l),
    guaranteedTotal_cons]

theorem guaranteedTotal_set {l : List (Client π)} {i : Nat} {c : Client π}
    (hc : l[i]? = some c) (c' : Client π) :
    guaranteedTotal (l.set i c') + c.share = guaranteedTotal l + c'.share := by
  obtain ⟨hi, hget⟩ := List.getElem?_eq_some_iff.mp hc
  have hset : (l.set i c').Perm (c' :: l.eraseIdx i) :=
    List.set_perm_cons_eraseIdx hi c'
  have hold : (c :: l.eraseIdx i).Perm l := by
    rw [← hget]
    exact List.getElem_cons_eraseIdx_perm hi
  rw [guaranteedTotal_perm hset, ← guaranteedTotal_perm hold,
    guaranteedTotal_cons, guaranteedTotal_cons]
  omega

theorem guaranteedTotal_swapRemove {l : List (Client π)} {i : Nat}
    {c : Client π} (hc : l[i]? = some c) :
    guaranteedTotal l = c.share + guaranteedTotal (swapRemove l i) := by
  rw [← guaranteedTotal_perm (swapRemove_perm hc), guaranteedTotal_cons]

end Total

variable {total : BitVec 32} {s t : Control π}

structure AdmissionInv (total : BitVec 32) (s : Control π) : Prop where
  promised : guaranteedTotal s.clients ≤ s.nrGuaranteed.toNat
  bounded : s.nrGuaranteed.toNat ≤ total.toNat
  fds : (s.clients.map Client.fd).Nodup

theorem controlCreateProc_eq (total nr : BitVec 32) (r : Registration) :
    controlCreateProc total nr r =
      if counted total nr r then (nr + r.hdr.guaranteedCores, built r)
      else (nr, false) := by
  unfold controlCreateProc counted built
  cases hbase : r.base with
  | none => simp
  | some base =>
    by_cases hlen : r.len < controlHdrSize
    · simp [hlen]
    · cases hhdr : hdrOk r with
      | false => simp [hlen]
      | true =>
        by_cases hcheck : total < r.hdr.guaranteedCores + nr
        · simp [hlen, hcheck]
        · simp [hlen, hcheck]

theorem sle_zero_eq_false {n : BitVec 32} (hpos : n ≠ 0)
    (hsmall : n.toNat ≤ ncpu) : n.sle 0 = false := by
  have hne : n.toNat ≠ 0 := fun h => hpos (BitVec.eq_of_toNat_eq h)
  have hncpu : ncpu = 256 := rfl
  have hzero : (0 : BitVec 32).toInt = 0 := rfl
  rw [BitVec.sle_eq_decide, decide_eq_false_iff_not, hzero,
    BitVec.toInt_eq_toNat_cond]
  split <;> omega

theorem nFds_pos_of_counted {nr : BitVec 32} {r : Registration}
    (hcounted : counted total nr r = true) : r.nFds.sle 0 = false := by
  have hhdr : hdrOk r = true := by
    simp only [counted, Bool.and_eq_true] at hcounted
    exact hcounted.1.2
  simp only [hdrOk, Bool.and_eq_true, Bool.not_eq_true', Bool.or_eq_false_iff,
    decide_eq_false_iff_not, beq_eq_false_iff_ne, bne_eq_false_iff_eq] at hhdr
  obtain ⟨-, ⟨hmany, hzero⟩, heq⟩ := hhdr
  rw [heq] at hmany hzero
  exact sle_zero_eq_false hzero (Nat.le_of_not_lt hmany)

theorem controlAddClient_uncounted {r : Registration} (fd : Nat) (p : π)
    (hcounted : ¬ (s.clients.length < hwallocdMaxProc ∧
      counted total s.nrGuaranteed r = true)) :
    controlAddClient total s fd p r = s := by
  unfold controlAddClient
  split
  · rfl
  · rename_i hroom
    have hnot : ¬ counted total s.nrGuaranteed r = true := fun h =>
      hcounted ⟨Nat.lt_of_not_le hroom, h⟩
    split
    · rfl
    · rw [controlCreateProc_eq, if_neg hnot]

theorem controlAddClient_counted {r : Registration} (fd : Nat) (p : π)
    (hroom : s.clients.length < hwallocdMaxProc)
    (hcounted : counted total s.nrGuaranteed r = true) :
    controlAddClient total s fd p r =
      if built r then
        if r.sent then
          { nrGuaranteed := s.nrGuaranteed + r.hdr.guaranteedCores
            clients := s.clients ++ [⟨fd, p, r.hdr.guaranteedCores, false⟩] }
        else s
      else
        { s with nrGuaranteed :=
            s.nrGuaranteed + r.hdr.guaranteedCores } := by
  have hback := BitVec.add_sub_cancel s.nrGuaranteed r.hdr.guaranteedCores
  unfold controlAddClient
  rw [if_neg (Nat.not_le_of_lt hroom), nFds_pos_of_counted hcounted,
    controlCreateProc_eq, if_pos hcounted]
  cases built r with
  | false => rfl
  | true =>
    cases r.sent with
    | false => simp [controlDestroyProc, hback]
    | true => rfl

theorem addClient_fds (total : BitVec 32) (p : π) (r : Registration)
    (hfds : (s.clients.map Client.fd).Nodup) {fd : Nat}
    (hfd : fd ∉ s.clients.map Client.fd) :
    ((controlAddClient total s fd p r).clients.map Client.fd).Nodup := by
  by_cases hcounted : s.clients.length < hwallocdMaxProc ∧
      counted total s.nrGuaranteed r = true
  · rw [controlAddClient_counted fd p hcounted.1 hcounted.2]
    split_ifs
    · rw [List.map_append, List.map_singleton, ← List.concat_eq_append]
      exact hfds.concat hfd
    · exact hfds
    · exact hfds
  · rw [controlAddClient_uncounted fd p hcounted]
    exact hfds

theorem admissionInv_init [DecidableEq π]
    (hs : (admissionSystem π total).init s) : AdmissionInv total s := by
  obtain ⟨hnr, hclients⟩ := hs
  constructor
  · simp [hclients, guaranteedTotal]
  · simp [hnr]
  · simp [hclients]

theorem counted_toNat {nr g : BitVec 32} (hwrap : g.toNat + nr.toNat < 2 ^ 32) :
    (nr + g).toNat = nr.toNat + g.toNat := by
  rw [BitVec.toNat_add, Nat.mod_eq_of_lt (by omega)]

theorem AdmissionInv.addClient (h : AdmissionInv total s) {fd : Nat} {p : π}
    {r : Registration} (hfd : fd ∉ s.clients.map Client.fd)
    (hok : noWrap total s (.addClient fd p r)) :
    AdmissionInv total (controlAddClient total s fd p r) := by
  have hfds := addClient_fds total p r h.fds hfd
  by_cases hcounted : s.clients.length < hwallocdMaxProc ∧
      counted total s.nrGuaranteed r = true
  · have hpromised := h.promised
    have hbounded : (s.nrGuaranteed + r.hdr.guaranteedCores).toNat ≤
        total.toNat := by
      have hcheck := hcounted.2
      simp only [counted, Bool.and_eq_true, Bool.not_eq_true',
        decide_eq_false_iff_not] at hcheck
      rw [BitVec.add_comm]
      exact BitVec.le_def.mp (BitVec.not_lt.mp hcheck.2)
    have hwrap := hok hcounted.1 hcounted.2
    rw [controlAddClient_counted fd p hcounted.1 hcounted.2] at hfds ⊢
    split_ifs at hfds ⊢ with hbuilt hsent
    · have hnr := counted_toNat (hwrap fun _ => hsent)
      refine ⟨?_, hbounded, hfds⟩
      change guaranteedTotal (s.clients ++ _) ≤ _
      rw [guaranteedTotal_concat, hnr]
      change r.hdr.guaranteedCores.toNat + _ ≤ _
      omega
    · exact h
    · have hnr := counted_toNat (hwrap fun hyes => absurd hyes hbuilt)
      refine ⟨?_, hbounded, hfds⟩
      change guaranteedTotal s.clients ≤ (s.nrGuaranteed + _).toNat
      omega
  · rw [controlAddClient_uncounted fd p hcounted]
    exact h

structure GivesBack (s t : Control π) (g : BitVec 32) : Prop where
  nr : t.nrGuaranteed = s.nrGuaranteed - g
  total : guaranteedTotal s.clients = g.toNat + guaranteedTotal t.clients
  fds : (s.clients.map Client.fd).Nodup → (t.clients.map Client.fd).Nodup

theorem GivesBack.none (s : Control π) : GivesBack s s 0 where
  nr := (BitVec.sub_zero _).symm
  total := (Nat.zero_add _).symm
  fds := id

theorem found_live (hfds : (s.clients.map Client.fd).Nodup) {fd i : Nat}
    {c : Client π} (hmem : fd ∈ s.readset) (hc : s.clients[i]? = some c)
    (hfd : c.fd = fd) : c.removed = false := by
  obtain ⟨c', hc', hfd'⟩ := List.mem_map.mp hmem
  obtain ⟨hc', hlive⟩ := List.mem_filter.mp hc'
  have heq : c' = c :=
    List.inj_on_of_nodup_map hfds hc' (List.mem_of_getElem? hc)
      (hfd'.trans hfd.symm)
  rw [← heq]
  simpa using hlive

theorem hangUp_givesBack (hfds : (s.clients.map Client.fd).Nodup) {fd : Nat}
    (hmem : fd ∈ s.readset) :
    ∃ g, GivesBack s (controlInstructDataplaneToRemoveClient s fd) g := by
  unfold controlInstructDataplaneToRemoveClient
  split
  · exact ⟨0, .none s⟩
  · rename_i i hfind
    split
    · exact ⟨0, .none s⟩
    · rename_i c hc
      have hfd : c.fd = fd := by
        obtain ⟨hi, hfound, _⟩ := List.findIdx?_eq_some_iff_getElem.mp hfind
        obtain ⟨_, hget⟩ := List.getElem?_eq_some_iff.mp hc
        rw [hget] at hfound
        simpa using hfound
      have hshare : c.share = c.guaranteedCores.toNat := by
        simp [Client.share, found_live hfds hmem hc hfd]
      have hset := guaranteedTotal_set hc { c with removed := true }
      rw [hshare, share_removed] at hset
      refine ⟨c.guaranteedCores, rfl, ?_, ?_⟩
      · change _ = _ + guaranteedTotal (s.clients.set i _)
        omega
      · have hsame : (s.clients.set i { c with removed := true }).map
            Client.fd = s.clients.map Client.fd := map_set_of_eq hc rfl
        change _ → ((s.clients.set i _).map Client.fd).Nodup
        rw [hsame]
        exact id

theorem removeClient_givesBack [DecidableEq π] (s : Control π) (p : π) :
    ∃ g, GivesBack s (controlRemoveClient s p) g := by
  unfold controlRemoveClient
  split
  · exact ⟨0, .none s⟩
  · rename_i i hfind
    split
    · exact ⟨0, .none s⟩
    · rename_i c hc
      have hswap := guaranteedTotal_swapRemove hc
      have hfds (hnodup : (s.clients.map Client.fd).Nodup) :
          ((swapRemove s.clients i).map Client.fd).Nodup := by
        have hperm := (swapRemove_perm hc).map Client.fd
        exact (List.nodup_cons.mp (hperm.nodup_iff.mpr hnodup)).2
      unfold Client.share at hswap
      unfold controlDestroyProc
      cases hremoved : c.removed with
      | true =>
        rw [hremoved, if_pos rfl] at hswap
        exact ⟨0, (BitVec.sub_zero _).symm, hswap, hfds⟩
      | false =>
        rw [hremoved] at hswap
        exact ⟨c.guaranteedCores, rfl, hswap, hfds⟩

theorem GivesBack.nr_toNat {g : BitVec 32} (hback : GivesBack s t g)
    (hpromised : guaranteedTotal s.clients ≤ s.nrGuaranteed.toNat) :
    t.nrGuaranteed.toNat = s.nrGuaranteed.toNat - g.toNat := by
  have htotal := hback.total
  rw [hback.nr]
  exact BitVec.toNat_sub_of_le (BitVec.le_def.mpr (by omega))

theorem AdmissionInv.givesBack (h : AdmissionInv total s) {g : BitVec 32}
    (hback : GivesBack s t g) : AdmissionInv total t := by
  have hnr := hback.nr_toNat h.promised
  have htotal := hback.total
  have hpromised := h.promised
  have hbounded := h.bounded
  constructor
  · omega
  · omega
  · exact hback.fds h.fds

theorem AdmissionInv.next [DecidableEq π] {a : AdmissionAct π}
    (h : AdmissionInv total s) (hok : noWrap total s a)
    (hnext : (admissionSystem π total).next s a = some t) :
    AdmissionInv total t := by
  cases a with
  | addClient fd p r =>
    simp only [admissionSystem, admissionNext] at hnext
    split at hnext
    · cases hnext
    · rename_i hfd
      cases hnext
      exact h.addClient hfd hok
  | hangUp fd =>
    simp only [admissionSystem, admissionNext] at hnext
    split at hnext <;> cases hnext
    rename_i hmem
    obtain ⟨g, hback⟩ := hangUp_givesBack h.fds hmem
    exact h.givesBack hback
  | removeClient p =>
    simp only [admissionSystem, admissionNext] at hnext
    cases hnext
    obtain ⟨g, hback⟩ := removeClient_givesBack s p
    exact h.givesBack hback

/-- Along every run in which no registration makes the sum of the check wrap,
the guarantees of the clients that are admitted and not removed add up to at
most the number of cores. -/
theorem admission_never_oversubscribes [DecidableEq π]
    (hs : (admissionSystem π total).Reach (noWrap total) s) :
    guaranteedTotal s.clients ≤ total.toNat := by
  have hinv : AdmissionInv total s :=
    hs.invariant (fun _ hinit => admissionInv_init hinit)
      fun _ _ _ hinv hok hnext => hinv.next hok hnext
  exact hinv.promised.trans hinv.bounded

/-- The condition is sharp: while no counted guarantee was lost, a client whose
request wraps and who is admitted all the same is promised more than there is. -/
theorem admitted_wrapping_exceeds {fd : Nat} {p : π} {r : Registration}
    (hcount : guaranteedTotal s.clients = s.nrGuaranteed.toNat)
    (hwrap : 2 ^ 32 ≤ r.hdr.guaranteedCores.toNat + s.nrGuaranteed.toNat)
    (hadmitted : (controlAddClient total s fd p r).clients =
      s.clients ++ [⟨fd, p, r.hdr.guaranteedCores, false⟩]) :
    total.toNat <
      guaranteedTotal (controlAddClient total s fd p r).clients := by
  have htotal := total.isLt
  rw [hadmitted, guaranteedTotal_concat]
  change _ < r.hdr.guaranteedCores.toNat + _
  omega

section Runs

def plainRegistration (guaranteedCores : BitVec 32) : Registration where
  len := 0x200000
  nFds := 1
  base := some 0x200000
  hdr := ⟨controlHdrMagic, 1, guaranteedCores⟩
  threads _ := ⟨⟨128, 0x1000, 0x2000⟩, ⟨128, 0x3000, 0x4000⟩, 0x5000⟩
  procAlloc := true
  threadsAlloc := true
  pagesFound := true
  sent := true

def noClients : Control Nat := ⟨0, []⟩

theorem noClients_init : (admissionSystem Nat 4).init noClients := ⟨rfl, rfl⟩

/-- Three clients register on four cores, the second of them too greedy; one
leaves and another takes its place. -/
def turnoverRun : List (AdmissionAct Nat) :=
  [.addClient 5 0 (plainRegistration 3), .addClient 6 1 (plainRegistration 2),
    .addClient 7 2 (plainRegistration 1), .hangUp 5, .removeClient 0,
    .addClient 5 3 (plainRegistration 3)]

theorem turnoverRun_isSome :
    (((admissionSystem Nat 4).restrict fun s a => decide (noWrap 4 s a)).exec
      noClients turnoverRun).isSome := by
  with_unfolding_all decide

def turnover : Control Nat :=
  (((admissionSystem Nat 4).restrict fun s a => decide (noWrap 4 s a)).exec
    noClients turnoverRun).get turnoverRun_isSome

theorem admission_never_oversubscribes_turnover :
    (admissionSystem Nat 4).Reach (noWrap 4) turnover ∧
      turnover.clients.map Client.p = [2, 3] ∧
      guaranteedTotal turnover.clients ≤ 4 := by
  have hs : (admissionSystem Nat 4).Reach (noWrap 4) turnover :=
    .of_checked noClients_init (Option.some_get turnoverRun_isSome).symm
  exact ⟨hs, by with_unfolding_all decide, admission_never_oversubscribes hs⟩

/-- The second client asks for `2 ^ 32 - 1` cores, and the sum wraps to 3. -/
def wrappingRun : List (AdmissionAct Nat) :=
  [.addClient 5 0 (plainRegistration 4),
    .addClient 6 1 (plainRegistration 0xffffffff)]

theorem wrappingRun_isSome :
    ((admissionSystem Nat 4).exec noClients wrappingRun).isSome := by
  with_unfolding_all decide

/-- Both clients are admitted on four cores. -/
theorem wrapping_request_admitted :
    ∃ s : Control Nat, (admissionSystem Nat 4).Reach anyStep s ∧
      s.nrGuaranteed = 3 ∧ s.clients.map Client.guaranteedCores =
        [4, 0xffffffff] ∧
      ¬ guaranteedTotal s.clients ≤ (4 : BitVec 32).toNat := by
  refine ⟨((admissionSystem Nat 4).exec noClients wrappingRun).get
    wrappingRun_isSome, ?_, ?_, ?_, ?_⟩
  · exact System.Reach.exec (.init noClients_init) wrappingRun
      (Option.some_get wrappingRun_isSome).symm
  · with_unfolding_all decide
  · with_unfolding_all decide
  · with_unfolding_all decide

end Runs

end Libut.Hwalloc
