import Libut.Base.LrpcFifo

/-!
Channels over memory that was not cleared. The init functions set up the two
ends and leave the table and the write-back word as they are. The receiver
takes whatever carries the parity of the first lap for a message, and the
sender believes the write-back word as soon as its first window is used up. So
a channel delivers what was sent exactly if its memory is blank to begin with.
-/

namespace Libut.Base

open Machine

/-- One sender and one receiver on a channel whose memory holds `mem`. -/
def lrpcOver (tbl wb : BitVec 64) (size : BitVec 32) (mem : LrpcMem) :
    System LrpcState LrpcAct where
  init s := s = lrpcFresh tbl wb size mem
  next := (lrpcSystem size).next

/-- Messages are received as they were sent, in order and none left out; the
ones not yet received are still in their slots; and `lrpc_recv` finds the next
one. -/
structure LrpcState.Delivers (s : LrpcState) : Prop where
  order : s.received <+: s.sent
  kept : ∀ n m, s.sent[n]? = some m → s.received.length ≤ n →
    s.mem.tbl (slotOf s.out.size n) =
      { cmd := m.cmd ||| parityOf s.out.size n, payload := m.payload }
  found : ∀ t, s.recvStep = (t, some none) → s.sent.length = s.received.length

theorem LrpcInv.delivers {size : BitVec 32} {k : Nat} {s : LrpcState}
    (hinv : LrpcInv size k s) : s.Delivers where
  order := hinv.order
  kept := by
    rw [hinv.outSize]
    exact hinv.queued
  found _ hfalse := (hinv.recv_false hfalse).2

section Stale

variable {tbl wb : BitVec 64} {size : BitVec 32} {k : Nat} {mem : LrpcMem}
  {s : LrpcState} {n : Nat}

def nullMsg : LrpcMsg := ⟨0, 0⟩

structure Filled (size : BitVec 32) (k : Nat) (mem : LrpcMem) (n : Nat)
    (s : LrpcState) : Prop where
  outSize : s.out.size = size
  sendHead : s.out.sendHead = BitVec.ofNat 32 n
  sendTail : s.out.sendTail = 0
  innSize : s.inn.size = size
  recvHead : s.inn.recvHead = 0
  sender : s.sendPc = .idle
  receiver : s.recvPc = .idle
  sent : s.sent = List.replicate n nullMsg
  received : s.received = []
  writeBack : s.mem.recvHeadWb = mem.recvHeadWb
  filled : ∀ i, i < n →
    (s.mem.tbl (BitVec.ofNat 32 i)).cmd &&& lrpcDoneParity = lrpcDoneParity
  stale : ∀ i, n ≤ i → i < 2 ^ k →
    s.mem.tbl (BitVec.ofNat 32 i) = mem.tbl (BitVec.ofNat 32 i)

theorem filled_fresh : Filled size k mem 0 (lrpcFresh tbl wb size mem) where
  outSize := rfl
  sendHead := rfl
  sendTail := rfl
  innSize := rfl
  recvHead := rfl
  sender := rfl
  receiver := rfl
  sent := rfl
  received := rfl
  writeBack := rfl
  filled := nofun
  stale _ _ _ := rfl

theorem storeMsg_tbl (mem : LrpcMem) (dst i : BitVec 32)
    (word payload : BitVec 64) :
    ((mem.storePayload dst payload).storeCmd dst word).tbl i =
      if i = dst then ⟨word, payload⟩ else mem.tbl i := by
  unfold LrpcMem.storePayload LrpcMem.storeCmd
  by_cases hi : i = dst
  · simp [hi]
  · simp [hi]

theorem Filled.send (hsize : size.toNat = 2 ^ k) (h : Filled size k mem n s)
    (hn : n < 2 ^ k) :
    ∃ t, (lrpcOver tbl wb size mem).exec s [.send nullMsg, .sender, .sender] =
        some t ∧ Filled size k mem (n + 1) t := by
  have hword := size.isLt
  have hroom : ¬ s.out.size ≤ s.out.sendHead - s.out.sendTail := by
    rw [h.outSize, h.sendHead, h.sendTail, BitVec.not_le, BitVec.lt_def]
    simp only [BitVec.ofNat_eq_ofNat, BitVec.sub_zero, BitVec.toNat_ofNat]
    omega
  have hslot : lrpcSlot s.out.sendHead s.out.size = BitVec.ofNat 32 n := by
    rw [h.sendHead, h.outSize]
    exact slotOf_first hsize hn
  have hparity : nullMsg.cmd ||| lrpcParity s.out.sendHead s.out.size =
      lrpcDoneParity := by
    rw [h.sendHead, h.outSize]
    change 0 ||| parityOf size n = _
    rw [parityOf_first hsize hn]
    decide
  refine ⟨{ s with
      out := { s.out with sendHead := s.out.sendHead + 1 }
      mem := (s.mem.storePayload (BitVec.ofNat 32 n) 0).storeCmd
        (BitVec.ofNat 32 n) lrpcDoneParity
      sendPc := .idle
      sent := s.sent ++ [nullMsg] }, ?_, ?_⟩
  · have hcall : nullMsg.cmd &&& lrpcDoneParity = 0 := by decide
    simp only [System.exec, lrpcOver, lrpcSystem, h.sender, hcall, and_self,
      if_true, LrpcState.sendCall, if_neg hroom, hslot, hparity,
      LrpcState.sendStep, Option.bind_some, Option.map_some]
    rfl
  · have hcmd := storeMsg_tbl s.mem (BitVec.ofNat 32 n)
    exact {
      outSize := h.outSize
      sendHead := by
        change s.out.sendHead + 1 = _
        rw [h.sendHead]
        exact (BitVec.ofNat_add n 1).symm
      sendTail := h.sendTail
      innSize := h.innSize
      recvHead := h.recvHead
      sender := rfl
      receiver := h.receiver
      sent := by
        change s.sent ++ [nullMsg] = _
        rw [h.sent, List.replicate_succ']
      received := h.received
      writeBack := h.writeBack
      filled := by
        intro i hi
        change (((s.mem.storePayload _ _).storeCmd _ _).tbl _).cmd &&& _ = _
        rw [hcmd]
        by_cases hin : i = n
        · rw [if_pos (by rw [hin]), BitVec.and_self]
        · rw [if_neg (Counter.ofNat_ne (by omega) (by omega) hin)]
          exact h.filled i (by omega)
      stale := by
        intro i hi hlt
        change ((s.mem.storePayload _ _).storeCmd _ _).tbl _ = _
        rw [hcmd, if_neg (Counter.ofNat_ne (by omega) (by omega) (by omega))]
        exact h.stale i (by omega) hlt }

theorem filled_reach (tbl wb : BitVec 64) (mem : LrpcMem)
    (hsize : size.toNat = 2 ^ k) (hn : n ≤ 2 ^ k) :
    ∃ s, (lrpcOver tbl wb size mem).Reach anyStep s ∧
      Filled size k mem n s := by
  induction n with
  | zero => exact ⟨_, .init rfl, filled_fresh⟩
  | succ n ih =>
    obtain ⟨s, hs, hfilled⟩ := ih (by omega)
    obtain ⟨t, hrun, ht⟩ := hfilled.send hsize (by omega)
    exact ⟨t, hs.exec _ hrun, ht⟩

structure Drained (size : BitVec 32) (sent r : Nat) (table : LrpcMem)
    (s : LrpcState) : Prop where
  innSize : s.inn.size = size
  recvHead : s.inn.recvHead = BitVec.ofNat 32 r
  receiver : s.recvPc = .idle
  sent : s.sent.length = sent
  received : s.received.length = r
  tbl : s.mem.tbl = table.tbl

theorem Drained.recv {r sent : Nat} {table : LrpcMem}
    (hsize : size.toNat = 2 ^ k) (h : Drained size sent r table s)
    (hr : r < 2 ^ k) (hset : (table.tbl (BitVec.ofNat 32 r)).cmd &&&
      lrpcDoneParity = lrpcDoneParity) :
    ∃ t, (lrpcOver tbl wb size mem).exec s [.receiver, .receiver, .receiver] =
        some t ∧ Drained size sent (r + 1) table t := by
  have hslot : lrpcSlot s.inn.recvHead s.inn.size = BitVec.ofNat 32 r := by
    rw [h.recvHead, h.innSize]
    exact slotOf_first hsize hr
  have hparity : lrpcParity s.inn.recvHead s.inn.size = lrpcDoneParity := by
    rw [h.recvHead, h.innSize]
    exact parityOf_first hsize hr
  have htaken : ¬ (s.mem.tbl (BitVec.ofNat 32 r)).cmd &&& lrpcDoneParity ≠
      lrpcDoneParity := by
    rw [h.tbl]
    exact not_not.mpr hset
  simp only [System.exec, lrpcOver, lrpcSystem, LrpcState.recvStep, h.receiver,
    hslot, hparity, if_neg htaken, Option.bind_some]
  refine ⟨_, rfl, h.innSize, ?_, rfl, h.sent, ?_, h.tbl⟩
  · change s.inn.recvHead + 1 = _
    rw [h.recvHead]
    exact (BitVec.ofNat_add r 1).symm
  · simp [h.received]

theorem drained_reach {r sent : Nat} {table : LrpcMem}
    (hsize : size.toNat = 2 ^ k)
    (hs : (lrpcOver tbl wb size mem).Reach anyStep s)
    (h : Drained size sent 0 table s) (hr : r ≤ 2 ^ k)
    (hset : ∀ i, i < r → (table.tbl (BitVec.ofNat 32 i)).cmd &&&
      lrpcDoneParity = lrpcDoneParity) :
    ∃ t, (lrpcOver tbl wb size mem).Reach anyStep t ∧
      Drained size sent r table t := by
  induction r with
  | zero => exact ⟨s, hs, h⟩
  | succ r ih =>
    obtain ⟨t, ht, hdrained⟩ := ih (by omega) fun i hi => hset i (by omega)
    obtain ⟨u, hrun, hu⟩ := hdrained.recv hsize (by omega)
      (hset r (by omega))
    exact ⟨u, ht.exec _ hrun, hu⟩

theorem parity_bit (x : BitVec 64) :
    x &&& lrpcDoneParity = 0 ∨ x &&& lrpcDoneParity = lrpcDoneParity := by
  have hbit : lrpcDoneParity = BitVec.twoPow 64 63 := by decide
  rw [hbit, BitVec.and_twoPow]
  split
  · exact .inr rfl
  · exact .inl rfl

/-- A slot that was left with its parity bit set is received as a message that
nobody sent: the messages before it are sent and received, and then it. -/
theorem stale_slot_received (tbl wb : BitVec 64) (hsize : size.toNat = 2 ^ k)
    {i : BitVec 32} (hi : i < size)
    (hset : (mem.tbl i).cmd &&& lrpcDoneParity ≠ 0) :
    ∃ s, (lrpcOver tbl wb size mem).Reach anyStep s ∧
      s.received.length = s.sent.length + 1 := by
  have hlt : i.toNat < 2 ^ k := by
    rw [← hsize]
    exact BitVec.lt_def.mp hi
  obtain ⟨s, hs, hfilled⟩ :=
    filled_reach tbl wb mem hsize (Nat.le_of_lt hlt)
  have hstart : Drained size i.toNat 0 s.mem s :=
    ⟨hfilled.innSize, hfilled.recvHead, hfilled.receiver,
      by rw [hfilled.sent, List.length_replicate],
      by rw [hfilled.received, List.length_nil], rfl⟩
  have hparity : ∀ j, j < i.toNat + 1 →
      (s.mem.tbl (BitVec.ofNat 32 j)).cmd &&& lrpcDoneParity =
        lrpcDoneParity := by
    intro j hj
    rcases Nat.lt_succ_iff_lt_or_eq.mp hj with hbefore | rfl
    · exact hfilled.filled j hbefore
    · rw [hfilled.stale _ le_rfl hlt, BitVec.ofNat_toNat, BitVec.setWidth_eq]
      exact (parity_bit _).resolve_left hset
  obtain ⟨t, ht, hdrained⟩ := drained_reach hsize hs hstart hlt hparity
  exact ⟨t, ht, by rw [hdrained.received, hdrained.sent]⟩

/-- A write-back word that was left with anything but zero makes the sender
believe, once its first window is used up, that there is room: it overwrites
the first message, which has not been received. -/
theorem stale_word_overwrites (tbl wb : BitVec 64) (hsize : size.toNat = 2 ^ k)
    (hword : mem.recvHeadWb ≠ 0) :
    ∃ s, (lrpcOver tbl wb size mem).Reach anyStep s ∧
      s.out.size = size ∧ s.received = [] ∧
      s.sent = List.replicate (2 ^ k + 1) nullMsg := by
  obtain ⟨s, hs, h⟩ :=
    filled_reach tbl wb mem hsize le_rfl
  have hhead : s.out.sendHead = size := by
    rw [h.sendHead, ← hsize]
    exact BitVec.ofNat_toNat ..
  have hfull : s.out.size ≤ s.out.sendHead - s.out.sendTail := by
    rw [h.outSize, hhead, h.sendTail]
    simp
  have hroom : ¬ s.out.sendHead - s.mem.recvHeadWb = s.out.size := by
    rw [h.outSize, hhead, h.writeBack]
    intro heq
    apply hword
    bv_omega
  have hcall : nullMsg.cmd &&& lrpcDoneParity = 0 := by decide
  have hrun : ∃ t, (lrpcOver tbl wb size mem).exec s
      [.send nullMsg, .sender, .sender, .sender] = some t ∧
      t.out.size = s.out.size ∧ t.received = s.received ∧
      t.sent = s.sent ++ [nullMsg] := by
    simp only [System.exec, lrpcOver, lrpcSystem, h.sender, hcall, and_self,
      if_true, LrpcState.sendCall, if_pos hfull, LrpcState.sendStep,
      lrpcPollSendTail, hroom, if_false, Option.bind_some, Option.map_some]
    exact ⟨_, rfl, rfl, rfl, rfl⟩
  obtain ⟨t, hrun, hout, hreceived, hsent⟩ := hrun
  refine ⟨t, hs.exec _ hrun, hout.trans h.outSize,
    hreceived.trans h.received, ?_⟩
  rw [hsent, h.sent, List.replicate_succ']

theorem LrpcState.Delivers.window (h : s.Delivers) (hsize : size.toNat = 2 ^ k)
    (hout : s.out.size = size)
    (hclear : ∀ m ∈ s.sent, m.cmd &&& lrpcDoneParity = 0) :
    s.sent.length ≤ s.received.length + 2 ^ k := by
  by_contra hmore
  have hfirst : s.received.length < s.sent.length := by omega
  have hlast : s.received.length + 2 ^ k < s.sent.length := by omega
  have hold := h.kept _ _ (List.getElem?_eq_getElem hfirst) le_rfl
  have hnew := h.kept _ _ (List.getElem?_eq_getElem hlast) (Nat.le_add_right ..)
  rw [hout] at hold hnew
  rw [slotOf_lap hsize, hold] at hnew
  have hcmd := congrArg (fun m : LrpcMsg => m.cmd &&& lrpcDoneParity) hnew
  simp only [word_parity (hclear _ (List.getElem_mem hfirst))
      (parityOf_cases size _), word_parity (hclear _ (List.getElem_mem hlast))
      (parityOf_cases size _)] at hcmd
  exact parityOf_lap hsize _ hcmd.symm

/-- Memory that is not blank spoils some run. -/
theorem blank_of_delivers (hsize : size.toNat = 2 ^ k)
    (hall : ∀ s, (lrpcOver tbl wb size mem).Reach anyStep s → s.Delivers) :
    mem.Blank size := by
  constructor
  · intro i hi
    by_contra hset
    obtain ⟨s, hs, hlength⟩ := stale_slot_received tbl wb hsize hi
      hset
    have hle := (hall s hs).order.length_le
    omega
  · by_contra hword
    obtain ⟨s, hs, hout, hreceived, hsent⟩ := stale_word_overwrites tbl wb
      hsize hword
    have hclear : ∀ m ∈ s.sent, m.cmd &&& lrpcDoneParity = 0 := by
      intro m hm
      rw [hsent] at hm
      rw [List.eq_of_mem_replicate hm]
      decide
    have hle := (hall s hs).window hsize hout hclear
    rw [hreceived, hsent, List.length_replicate, List.length_nil] at hle
    omega

end Stale

end Libut.Base
