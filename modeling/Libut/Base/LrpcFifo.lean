import Libut.Machine.Counter
import Libut.Base.Lrpc

/-!
The channel is a bounded FIFO. Positions of the two sides are related to the
unbounded numbers of messages sent and received, so that the parity of every
slot, the cached tail and the 32-bit wrap are all read off two natural
numbers. The invariant is preserved by every single access of either side.
-/

namespace Libut.Base

open Machine

def slotOf (size : BitVec 32) (n : Nat) : BitVec 32 :=
  lrpcSlot (BitVec.ofNat 32 n) size

def parityOf (size : BitVec 32) (n : Nat) : BitVec 64 :=
  lrpcParity (BitVec.ofNat 32 n) size

theorem isPowerOfTwo_toNat {w : Nat} {x : BitVec w}
    (h : isPowerOfTwo x = true) : ∃ k, x.toNat = 2 ^ k := by
  simp only [isPowerOfTwo, Bool.and_eq_true, bne_iff_ne, ne_eq, beq_iff_eq] at h
  obtain ⟨hne, hand⟩ := h
  have hpos : x.toNat ≠ 0 := by
    intro hzero
    exact hne (BitVec.eq_of_toNat_eq (by simpa using hzero))
  have hlt : x.toNat < 2 ^ w := x.isLt
  have hsub : (x - 1).toNat = x.toNat - 1 := by
    rw [BitVec.toNat_sub_of_le]
    · rcases Nat.lt_or_ge 1 (2 ^ w) with hw | hw
      · simp [Nat.mod_eq_of_lt hw]
      · omega
    · rw [BitVec.le_def]
      have hone : (1 : BitVec w).toNat ≤ 1 := by
        simpa using Nat.mod_le 1 (2 ^ w)
      omega
  have hnat : x.toNat &&& (x.toNat - 1) = 0 := by
    have h := congrArg BitVec.toNat hand
    rw [BitVec.toNat_and, hsub] at h
    simpa using h
  exact (Nat.ne_zero_and_sub_one_eq_zero_iff_isPowerOfTwo).mp ⟨hpos, hnat⟩

section Slots

variable {size : BitVec 32} {k : Nat} (hsize : size.toNat = 2 ^ k)

include hsize

theorem slotOf_ne {a b : Nat} (hab : a < b) (hlap : b < a + 2 ^ k) :
    slotOf size a ≠ slotOf size b := by
  intro heq
  have h := congrArg BitVec.toNat heq
  simp only [slotOf, lrpcSlot, Counter.slot_toNat hsize] at h
  exact Counter.slot_ne_of_lt hab hlap h

theorem slotOf_lap (n : Nat) : slotOf size (n + 2 ^ k) = slotOf size n := by
  apply BitVec.eq_of_toNat_eq
  simp only [slotOf, lrpcSlot, Counter.slot_toNat hsize, Nat.add_mod_right]

theorem parityOf_eq (n : Nat) :
    parityOf size n = if n / 2 ^ k % 2 = 0 then lrpcDoneParity else 0 := by
  unfold parityOf lrpcParity
  by_cases h : n / 2 ^ k % 2 = 0
  · simp [h, (Counter.lap_eq_zero_iff hsize n).mpr h]
  · have hne := mt (Counter.lap_eq_zero_iff hsize n).mp h
    simp only [BitVec.ofNat_eq_ofNat] at hne
    simp [h, hne]

theorem slotOf_first {n : Nat} (hn : n < 2 ^ k) :
    slotOf size n = BitVec.ofNat 32 n := by
  have hlt := size.isLt
  apply BitVec.eq_of_toNat_eq
  simp only [slotOf, lrpcSlot, Counter.slot_toNat hsize, BitVec.toNat_ofNat]
  rw [Nat.mod_eq_of_lt hn, Nat.mod_eq_of_lt (by omega)]

theorem parityOf_first {n : Nat} (hn : n < 2 ^ k) :
    parityOf size n = lrpcDoneParity := by
  rw [parityOf_eq hsize, Nat.div_eq_of_lt hn]
  rfl

theorem parityOf_lap (n : Nat) :
    parityOf size (n + 2 ^ k) ≠ parityOf size n := by
  have hne : lrpcDoneParity ≠ 0 := by decide
  rw [parityOf_eq hsize, parityOf_eq hsize]
  by_cases h : n / 2 ^ k % 2 = 0
  · rw [if_neg (mt (Counter.lap_flip n).mp (not_not.mpr h)), if_pos h]
    exact hne.symm
  · rw [if_pos ((Counter.lap_flip n).mpr h), if_neg h]
    exact hne

end Slots

section Words

theorem parityOf_cases (size : BitVec 32) (n : Nat) :
    parityOf size n = 0 ∨ parityOf size n = lrpcDoneParity := by
  unfold parityOf lrpcParity
  split <;> simp

variable {cmd parity : BitVec 64} (hcmd : cmd &&& lrpcDoneParity = 0)
  (hparity : parity = 0 ∨ parity = lrpcDoneParity)

include hcmd hparity

theorem word_parity : (cmd ||| parity) &&& lrpcDoneParity = parity := by
  rw [BitVec.and_comm, BitVec.and_or_distrib_left, BitVec.and_comm, hcmd]
  rcases hparity with rfl | rfl <;> decide

theorem word_cmd : (cmd ||| parity) &&& lrpcCmdMask = cmd := by
  have hmask : cmd &&& lrpcCmdMask = cmd := by
    have hsplit : cmd &&& (lrpcDoneParity ||| lrpcCmdMask) = cmd := by
      have hones : lrpcDoneParity ||| lrpcCmdMask = BitVec.allOnes 64 := by
        decide
      rw [hones, BitVec.and_allOnes]
    rw [BitVec.and_or_distrib_left, hcmd] at hsplit
    simpa using hsplit
  have hzero : lrpcCmdMask &&& parity = 0 := by
    rcases hparity with rfl | rfl <;> decide
  rw [BitVec.and_comm, BitVec.and_or_distrib_left, hzero, BitVec.and_comm,
    hmask]
  simp

end Words

def SendPc.claimed : SendPc → Nat
  | .idle | .full _ | .retry _ => 0
  | .payload .. | .publish .. => 1

def SendPc.reserved : SendPc → Nat
  | .idle | .full _ => 0
  | .retry _ | .payload .. | .publish .. => 1

def RecvPc.taken : RecvPc → Nat
  | .idle => 0
  | .payload _ | .writeBack _ => 1

def LrpcState.SenderOk (size : BitVec 32) (s : LrpcState) : Prop :=
  match s.sendPc with
  | .idle => True
  | .full msg | .retry msg => msg.cmd &&& lrpcDoneParity = 0
  | .payload dst word msg =>
    msg.cmd &&& lrpcDoneParity = 0 ∧ dst = slotOf size s.sent.length ∧
      word = msg.cmd ||| parityOf size s.sent.length
  | .publish dst word msg =>
    msg.cmd &&& lrpcDoneParity = 0 ∧ dst = slotOf size s.sent.length ∧
      word = msg.cmd ||| parityOf size s.sent.length ∧
      (s.mem.tbl dst).payload = msg.payload

def LrpcState.ReceiverOk (size : BitVec 32) (s : LrpcState) : Prop :=
  match s.recvPc with
  | .idle => True
  | .payload cmd =>
    ∃ m, s.sent[s.received.length]? = some m ∧
      cmd = m.cmd ||| parityOf size s.received.length
  | .writeBack msg => s.sent[s.received.length]? = some msg

structure LrpcInv (size : BitVec 32) (k : Nat) (s : LrpcState) : Prop where
  outSize : s.out.size = size
  innSize : s.inn.size = size
  head : s.out.sendHead = BitVec.ofNat 32 (s.sent.length + s.sendPc.claimed)
  window : ∃ tail, s.out.sendTail = BitVec.ofNat 32 tail ∧
    tail ≤ s.received.length ∧
    s.sent.length + s.sendPc.reserved ≤ tail + 2 ^ k
  recvHead :
    s.inn.recvHead = BitVec.ofNat 32 (s.received.length + s.recvPc.taken)
  writeBack : s.mem.recvHeadWb = BitVec.ofNat 32 s.received.length
  order : s.received <+: s.sent
  clear : ∀ m ∈ s.sent, m.cmd &&& lrpcDoneParity = 0
  queued : ∀ n m, s.sent[n]? = some m → s.received.length ≤ n →
    s.mem.tbl (slotOf size n) =
      { cmd := m.cmd ||| parityOf size n, payload := m.payload }
  free : ∀ n, s.sent.length ≤ n → n < s.sent.length + 2 ^ k →
    (s.mem.tbl (slotOf size n)).cmd &&& lrpcDoneParity ≠ parityOf size n
  sender : s.SenderOk size
  receiver : s.ReceiverOk size

section Preservation

variable {size : BitVec 32} {k : Nat} {s : LrpcState} {msg : LrpcMsg}

theorem LrpcInv.received_le (hinv : LrpcInv size k s) :
    s.received.length ≤ s.sent.length :=
  hinv.order.length_le

section

variable (hsize : size.toNat = 2 ^ k)
include hsize

theorem LrpcInv.cached_length (hinv : LrpcInv size k s)
    (hclaimed : s.sendPc.claimed = 0) :
    ∃ tail, s.out.sendTail = BitVec.ofNat 32 tail ∧
      tail ≤ s.received.length ∧ s.sent.length ≤ tail + 2 ^ k ∧
      (s.out.sendHead - s.out.sendTail).toNat = s.sent.length - tail := by
  obtain ⟨tail, htail, hle, hroom⟩ := hinv.window
  have hlt : 2 ^ k < 2 ^ 32 := hsize ▸ size.isLt
  have hrecv := hinv.received_le
  refine ⟨tail, htail, hle, by omega, ?_⟩
  rw [hinv.head, hclaimed, htail, Nat.add_zero]
  exact Counter.distance_toNat (by omega) (by omega)

theorem LrpcInv.sendCall (hinv : LrpcInv size k s) (hidle : s.sendPc = .idle)
    (hmsg : msg.cmd &&& lrpcDoneParity = 0) :
    LrpcInv size k (s.sendCall msg) := by
  have hclaimed : s.sendPc.claimed = 0 := by rw [hidle]; rfl
  obtain ⟨tail, htail, hle, hroom, hdist⟩ := hinv.cached_length hsize hclaimed
  have hhead := hinv.head
  rw [hclaimed, Nat.add_zero] at hhead
  unfold LrpcState.sendCall
  by_cases hfull : s.out.size ≤ s.out.sendHead - s.out.sendTail
  · rw [if_pos hfull]
    exact { hinv with
      head := hhead
      window := ⟨tail, htail, hle, by simpa [SendPc.reserved] using hroom⟩
      sender := hmsg }
  · rw [if_neg hfull]
    have hspace : s.sent.length < tail + 2 ^ k := by
      rw [hinv.outSize, BitVec.le_def, hdist, hsize] at hfull
      omega
    exact { hinv with
      head := by simp only [hhead, Counter.succ, SendPc.claimed]
      window := ⟨tail, htail, hle, by simpa [SendPc.reserved] using hspace⟩
      sender := ⟨hmsg, by rw [hhead, hinv.outSize]; rfl,
        by rw [hhead, hinv.outSize]; rfl⟩ }

theorem LrpcInv.next_slot_ne (hinv : LrpcInv size k s)
    (hres : s.sendPc.reserved = 1) {n : Nat} (hn : n < s.sent.length)
    (hrecv : s.received.length ≤ n) :
    slotOf size n ≠ slotOf size s.sent.length := by
  obtain ⟨tail, _, hle, hroom⟩ := hinv.window
  exact slotOf_ne hsize hn (by omega)

/-- Storing the payload of the next message disturbs neither a queued message
nor the parity of a free slot. -/
theorem LrpcInv.storePayload (hinv : LrpcInv size k s)
    (hres : s.sendPc.reserved = 1) (hmsg : msg.cmd &&& lrpcDoneParity = 0)
    {out : LrpcChanOut} (hout : out.size = size)
    (htail : out.sendTail = s.out.sendTail)
    (hhead : out.sendHead = BitVec.ofNat 32 (s.sent.length + 1)) :
    LrpcInv size k { s with
      out := out
      mem := s.mem.storePayload (slotOf size s.sent.length) msg.payload
      sendPc := .publish (slotOf size s.sent.length)
        (msg.cmd ||| parityOf size s.sent.length) msg } := by
  have hwindow := hinv.window
  rw [hres] at hwindow
  exact { hinv with
    outSize := hout
    head := hhead
    window := by simpa only [htail, SendPc.reserved] using hwindow
    queued := by
      intro n m hm hrecv
      have hn : n < s.sent.length := (List.getElem?_eq_some_iff.mp hm).1
      have hne := hinv.next_slot_ne hsize hres hn hrecv
      simpa [LrpcMem.storePayload, hne] using hinv.queued n m hm hrecv
    free := by
      intro n hlow hhigh
      have h := hinv.free n hlow hhigh
      by_cases heq : slotOf size n = slotOf size s.sent.length
      · simpa [LrpcMem.storePayload, heq] using heq ▸ h
      · simpa [LrpcMem.storePayload, heq] using h
    sender := ⟨hmsg, rfl, rfl, by simp [LrpcMem.storePayload]⟩ }

end

theorem LrpcInv.receiver_append (hinv : LrpcInv size k s) (dst : BitVec 32)
    (word : BitVec 64) :
    LrpcState.ReceiverOk size { s with
      mem := s.mem.storeCmd dst word
      sendPc := .idle
      sent := s.sent ++ [msg] } := by
  have hreceiver := hinv.receiver
  unfold LrpcState.ReceiverOk at hreceiver ⊢
  cases hrpc : s.recvPc with
  | idle => trivial
  | payload cmd =>
    simp only [hrpc] at hreceiver
    obtain ⟨m, hm, hcmd⟩ := hreceiver
    have hn := (List.getElem?_eq_some_iff.mp hm).1
    exact ⟨m, by rw [List.getElem?_append_left hn, hm], hcmd⟩
  | writeBack m =>
    simp only [hrpc] at hreceiver
    have hn := (List.getElem?_eq_some_iff.mp hreceiver).1
    dsimp only
    rw [List.getElem?_append_left hn, hreceiver]

theorem LrpcInv.order_snoc (hinv : LrpcInv size k s)
    (hmsg : s.sent[s.received.length]? = some msg) :
    s.received ++ [msg] <+: s.sent := by
  obtain ⟨rest, hrest⟩ := hinv.order
  rw [← hrest] at hmsg ⊢
  rw [List.getElem?_append_right (Nat.le_refl _), Nat.sub_self] at hmsg
  obtain ⟨tail, rfl⟩ : ∃ tail, rest = msg :: tail := by
    cases rest with
    | nil => simp at hmsg
    | cons head tail => exact ⟨tail, by simpa using hmsg⟩
  exact ⟨tail, by simp⟩

theorem LrpcInv.publish (hsize : size.toNat = 2 ^ k)
    (hinv : LrpcInv size k s) {dst : BitVec 32} {word : BitVec 64}
    (hpc : s.sendPc = .publish dst word msg) :
    LrpcInv size k { s with
      mem := s.mem.storeCmd dst word
      sendPc := .idle
      sent := s.sent ++ [msg] } := by
  have hsender := hinv.sender
  simp only [LrpcState.SenderOk, hpc] at hsender
  obtain ⟨hmsg, hdst, hword, hpayload⟩ := hsender
  have hres : s.sendPc.reserved = 1 := by rw [hpc]; rfl
  have hhead := hinv.head
  obtain ⟨tail, htail, hle, hroom⟩ := hinv.window
  rw [hpc] at hhead hroom
  exact { hinv with
    head := by simpa [SendPc.claimed] using hhead
    window := ⟨tail, htail, hle, by
      simpa [SendPc.reserved, SendPc.claimed] using hroom⟩
    order := hinv.order.trans (List.prefix_append _ _)
    clear := by
      intro m hm
      rcases List.mem_append.mp hm with hold | hnew
      · exact hinv.clear m hold
      · rw [List.mem_singleton.mp hnew]
        exact hmsg
    queued := by
      intro n m hm hrecv
      rcases Nat.lt_or_ge n s.sent.length with hn | hn
      · rw [List.getElem?_append_left hn] at hm
        have hne := hinv.next_slot_ne hsize hres hn hrecv
        simpa [LrpcMem.storeCmd, hdst, hne] using hinv.queued n m hm hrecv
      · have hlen := (List.getElem?_eq_some_iff.mp hm).1
        have heq : n = s.sent.length := by
          rw [List.length_append, List.length_singleton] at hlen
          omega
        subst heq
        have hmsg' : msg = m := by simpa using hm
        subst hmsg'
        rw [hdst] at hpayload
        simp [LrpcMem.storeCmd, hdst, hword, hpayload]
    free := by
      intro n hlow hhigh
      rw [List.length_append, List.length_singleton] at hlow hhigh
      rcases Nat.lt_or_ge n (s.sent.length + 2 ^ k) with hn | hn
      · have hne := slotOf_ne hsize (by omega : s.sent.length < n) hn
        simpa [LrpcMem.storeCmd, hdst, hne.symm] using
          hinv.free n (by omega) hn
      · -- one lap after the message just published: its parity has flipped
        have heq : n = s.sent.length + 2 ^ k := by omega
        subst heq
        rw [slotOf_lap hsize]
        simp only [LrpcMem.storeCmd, hdst, Function.update_self, hword]
        rw [word_parity hmsg (parityOf_cases size _)]
        exact (parityOf_lap hsize _).symm
    sender := trivial
    receiver := hinv.receiver_append dst word }

theorem LrpcInv.next_word (hinv : LrpcInv size k s) {m : LrpcMsg}
    (hm : s.sent[s.received.length]? = some m) :
    s.mem.tbl (slotOf size s.received.length) =
      { cmd := m.cmd ||| parityOf size s.received.length
        payload := m.payload } :=
  hinv.queued _ m hm (Nat.le_refl _)

/-- The parity test of the receiver succeeds exactly when the next message
has been published. -/
theorem LrpcInv.parity_iff (hinv : LrpcInv size k s) (hidle : s.recvPc = .idle) :
    (s.mem.tbl (lrpcSlot s.inn.recvHead s.inn.size)).cmd &&& lrpcDoneParity =
        lrpcParity s.inn.recvHead s.inn.size ↔
      s.received.length < s.sent.length := by
  have hhead := hinv.recvHead
  rw [hidle] at hhead
  simp only [RecvPc.taken, Nat.add_zero] at hhead
  rw [hhead, hinv.innSize]
  change (s.mem.tbl (slotOf size s.received.length)).cmd &&& lrpcDoneParity =
    parityOf size s.received.length ↔ _
  constructor
  · intro hparity
    by_contra hnot
    have heq : s.received.length = s.sent.length :=
      Nat.le_antisymm hinv.received_le (by omega)
    have hpos : 0 < 2 ^ k := Nat.two_pow_pos k
    exact hinv.free _ heq.ge (by omega) hparity
  · intro hlt
    have hm : s.sent[s.received.length]? = some s.sent[s.received.length] :=
      List.getElem?_eq_getElem hlt
    rw [hinv.next_word hm]
    exact word_parity (hinv.clear _ (List.getElem_mem hlt))
      (parityOf_cases size _)

theorem LrpcInv.recvStep (hinv : LrpcInv size k s) :
    LrpcInv size k s.recvStep.1 := by
  unfold LrpcState.recvStep
  cases hpc : s.recvPc with
  | idle =>
    have hiff := hinv.parity_iff hpc
    have hhead := hinv.recvHead
    rw [hpc] at hhead
    simp only [RecvPc.taken, Nat.add_zero] at hhead
    dsimp only
    split
    · exact hinv
    · rename_i hparity
      have hlt := hiff.mp (not_not.mp hparity)
      have hm : s.sent[s.received.length]? = some s.sent[s.received.length] :=
        List.getElem?_eq_getElem hlt
      exact { hinv with
        recvHead := by simp only [hhead, Counter.succ, RecvPc.taken]
        receiver := ⟨_, hm, by
          rw [hhead, hinv.innSize]
          exact congrArg LrpcMsg.cmd (hinv.next_word hm)⟩ }
  | payload cmd =>
    have hreceiver := hinv.receiver
    simp only [LrpcState.ReceiverOk, hpc] at hreceiver
    obtain ⟨m, hm, hcmd⟩ := hreceiver
    have hhead := hinv.recvHead
    rw [hpc] at hhead
    have hslot : lrpcSlot (s.inn.recvHead - 1) s.inn.size =
        slotOf size s.received.length := by
      have hback : s.inn.recvHead - 1 =
          BitVec.ofNat 32 s.received.length := by
        rw [hhead, RecvPc.taken, ← Counter.succ, BitVec.add_sub_cancel]
      rw [hback, hinv.innSize]
      rfl
    have hclear := hinv.clear m (List.mem_of_getElem? hm)
    exact { hinv with
      recvHead := hhead
      receiver := by
        simp only [LrpcState.ReceiverOk]
        rw [hslot, hinv.next_word hm, hcmd,
          word_cmd hclear (parityOf_cases size _)]
        exact hm }
  | writeBack msg =>
    have hreceiver := hinv.receiver
    simp only [LrpcState.ReceiverOk, hpc] at hreceiver
    have hhead := hinv.recvHead
    rw [hpc] at hhead
    simp only [RecvPc.taken] at hhead
    obtain ⟨tail, htail, hle, hroom⟩ := hinv.window
    exact { hinv with
      window := ⟨tail, htail, by simp; omega, hroom⟩
      recvHead := by simpa [RecvPc.taken] using hhead
      writeBack := by simpa using hhead
      order := hinv.order_snoc hreceiver
      queued := by
        intro n m hm hrecv
        rw [List.length_append, List.length_singleton] at hrecv
        exact hinv.queued n m hm (by omega)
      receiver := trivial }

theorem LrpcInv.sendStep (hsize : size.toNat = 2 ^ k) (hinv : LrpcInv size k s)
    {t : LrpcState} {ret : Option Bool} (hstep : s.sendStep = some (t, ret)) :
    LrpcInv size k t := by
  have hsender := hinv.sender
  have hhead := hinv.head
  unfold LrpcState.sendStep at hstep
  cases hpc : s.sendPc with
  | idle => simp [hpc] at hstep
  | full msg =>
    simp only [LrpcState.SenderOk, hpc] at hsender
    rw [hpc, SendPc.claimed, Nat.add_zero] at hhead
    obtain ⟨_, _, hle, hroom⟩ := hinv.window
    rw [hpc, SendPc.reserved, Nat.add_zero] at hroom
    have hrecv := hinv.received_le
    have hlt : 2 ^ k < 2 ^ 32 := hsize ▸ size.isLt
    have hdist : (s.out.sendHead - s.mem.recvHeadWb).toNat =
        s.sent.length - s.received.length := by
      rw [hhead, hinv.writeBack]
      exact Counter.distance_toNat hrecv (by omega)
    simp only [hpc] at hstep
    split at hstep
    · simp only [Option.some.injEq, Prod.mk.injEq] at hstep
      obtain ⟨rfl, -⟩ := hstep
      exact { hinv with
        head := hhead
        window := ⟨_, hinv.writeBack, Nat.le_refl _, by
          simp only [SendPc.reserved]; omega⟩
        sender := trivial }
    · rename_i hspace
      simp only [Option.some.injEq, Prod.mk.injEq] at hstep
      obtain ⟨rfl, -⟩ := hstep
      have hne : s.sent.length - s.received.length ≠ 2 ^ k := by
        intro heq
        apply hspace
        change s.out.sendHead - s.mem.recvHeadWb = s.out.size
        apply BitVec.eq_of_toNat_eq
        rw [hdist, hinv.outSize, hsize, heq]
      exact { hinv with
        head := hhead
        window := ⟨_, hinv.writeBack, Nat.le_refl _, by
          simp only [SendPc.reserved]; omega⟩
        sender := hsender }
  | retry msg =>
    simp only [LrpcState.SenderOk, hpc] at hsender
    rw [hpc, SendPc.claimed, Nat.add_zero] at hhead
    simp only [hpc, Option.some.injEq, Prod.mk.injEq] at hstep
    obtain ⟨rfl, -⟩ := hstep
    rw [hhead, hinv.outSize]
    exact hinv.storePayload hsize (by rw [hpc]; rfl) hsender rfl
      rfl (Counter.succ _)
  | payload dst word msg =>
    simp only [LrpcState.SenderOk, hpc] at hsender
    obtain ⟨hmsg, rfl, rfl⟩ := hsender
    rw [hpc] at hhead
    simp only [hpc, Option.some.injEq, Prod.mk.injEq] at hstep
    obtain ⟨rfl, -⟩ := hstep
    exact hinv.storePayload hsize (by rw [hpc]; rfl) hmsg hinv.outSize
      rfl hhead
  | publish dst word msg =>
    simp only [hpc, Option.some.injEq, Prod.mk.injEq] at hstep
    obtain ⟨rfl, -⟩ := hstep
    exact hinv.publish hsize hpc

end Preservation

/-- Both ends as the two init functions leave them, over memory that holds
`mem`. -/
def lrpcFresh (tbl wb : BitVec 64) (size : BitVec 32) (mem : LrpcMem) :
    LrpcState where
  out := ⟨tbl, wb, 0, 0, size⟩
  inn := ⟨tbl, wb, 0, size⟩
  mem := mem
  sendPc := .idle
  recvPc := .idle
  sent := []
  received := []

/-- Memory that looks like an empty channel to the first lap: no slot has its
parity bit set, and nothing is acknowledged. -/
structure LrpcMem.Blank (size : BitVec 32) (mem : LrpcMem) : Prop where
  clear : ∀ i, i < size → (mem.tbl i).cmd &&& lrpcDoneParity = 0
  writeBack : mem.recvHeadWb = 0

variable {size : BitVec 32} {k : Nat} {s : LrpcState}

theorem lrpcInv_blank {mem : LrpcMem} (hsize : size.toNat = 2 ^ k)
    (hmem : mem.Blank size) (tbl wb : BitVec 64) :
    LrpcInv size k (lrpcFresh tbl wb size mem) where
  outSize := rfl
  innSize := rfl
  head := rfl
  window := ⟨0, rfl, le_rfl, Nat.zero_le _⟩
  recvHead := rfl
  writeBack := hmem.writeBack
  order := List.prefix_rfl
  clear := nofun
  queued := nofun
  free := by
    intro n _ hn
    have hfirst : n < 2 ^ k := by simpa [lrpcFresh] using hn
    have hlt : BitVec.ofNat 32 n < size := by
      have hword := size.isLt
      rw [BitVec.lt_def, BitVec.toNat_ofNat, Nat.mod_eq_of_lt (by omega)]
      omega
    rw [slotOf_first hsize hfirst, parityOf_first hsize hfirst]
    change (mem.tbl _).cmd &&& lrpcDoneParity ≠ _
    rw [hmem.clear _ hlt]
    decide
  sender := trivial
  receiver := trivial

theorem lrpcInv_init (hsize : size.toNat = 2 ^ k)
    (hs : (lrpcSystem size).init s) : LrpcInv size k s := by
  obtain ⟨out, inn, ⟨msgs, word⟩, sendPc, recvPc, sent, received⟩ := s
  obtain ⟨⟨tbl, wb, hout, hinn⟩, htbl, hwb, hsend, hrecv, hsent,
    hreceived⟩ := hs
  obtain ⟨_, rfl⟩ := lrpcInitOut_ok_iff.mp hout
  obtain ⟨_, rfl⟩ := lrpcInitIn_ok_iff.mp hinn
  cases htbl
  cases hwb
  cases hsend
  cases hrecv
  cases hsent
  cases hreceived
  have hzero : 0 &&& lrpcDoneParity = 0 := by decide
  exact lrpcInv_blank hsize ⟨fun _ _ => hzero, rfl⟩ tbl wb

theorem lrpc_size_pow {ok : LrpcState → LrpcAct → Prop}
    (hs : (lrpcSystem size).Reach ok s) : ∃ k, size.toNat = 2 ^ k := by
  induction hs with
  | init h =>
    obtain ⟨⟨tbl, wb, hout, _⟩, _⟩ := h
    exact isPowerOfTwo_toNat (lrpcInitOut_ok_iff.mp hout).1
  | step _ _ _ ih => exact ih

theorem LrpcInv.next (hsize : size.toNat = 2 ^ k) {t : LrpcState} {a : LrpcAct}
    (hinv : LrpcInv size k s) (hnext : (lrpcSystem size).next s a = some t) :
    LrpcInv size k t := by
  cases a with
  | send msg =>
    obtain ⟨hcall, rfl⟩ := guarded hnext
    exact hinv.sendCall hsize hcall.1 hcall.2
  | sender =>
    simp only [lrpcSystem, Option.map_eq_some_iff] at hnext
    obtain ⟨⟨next, ret⟩, hstep, rfl⟩ := hnext
    exact hinv.sendStep hsize hstep
  | receiver =>
    simp only [lrpcSystem, Option.some.injEq] at hnext
    subst hnext
    exact hinv.recvStep

theorem lrpc_inv (hsize : size.toNat = 2 ^ k)
    (hs : (lrpcSystem size).Reach anyStep s) : LrpcInv size k s :=
  hs.invariant (fun _ h => lrpcInv_init hsize h)
    (fun _ _ _ hinv _ hnext => hinv.next hsize hnext)

/-- `lrpc_send` gives up only on a channel that is really full. -/
theorem LrpcInv.send_false (hsize : size.toNat = 2 ^ k) {t : LrpcState}
    (hinv : LrpcInv size k s) (hfalse : s.sendStep = some (t, some false)) :
    s.sent.length = s.received.length + size.toNat := by
  unfold LrpcState.sendStep at hfalse
  cases hpc : s.sendPc with
  | idle | retry msg | payload dst word msg | publish dst word msg =>
    simp [hpc] at hfalse
  | full msg =>
    have hhead := hinv.head
    rw [hpc, SendPc.claimed, Nat.add_zero] at hhead
    obtain ⟨_, _, hle, hroom⟩ := hinv.window
    rw [hpc, SendPc.reserved, Nat.add_zero] at hroom
    have hrecv := hinv.received_le
    have hlt : 2 ^ k < 2 ^ 32 := hsize ▸ size.isLt
    simp only [hpc] at hfalse
    split at hfalse
    · rename_i hfull
      change s.out.sendHead - s.mem.recvHeadWb = s.out.size at hfull
      have hdist := congrArg BitVec.toNat hfull
      rw [hhead, hinv.writeBack, hinv.outSize,
        Counter.distance_toNat hrecv (by omega)] at hdist
      omega
    · simp at hfalse

/-- `lrpc_recv` reports an empty channel only when the next message has not
been published. -/
theorem LrpcInv.recv_false {t : LrpcState} (hinv : LrpcInv size k s)
    (hfalse : s.recvStep = (t, some none)) :
    s.recvPc = .idle ∧ s.sent.length = s.received.length := by
  unfold LrpcState.recvStep at hfalse
  cases hpc : s.recvPc with
  | payload cmd => simp [hpc] at hfalse
  | writeBack msg => simp [hpc] at hfalse
  | idle =>
    simp only [hpc] at hfalse
    split at hfalse
    · rename_i hparity
      have hnot := mt (hinv.parity_iff hpc).mpr hparity
      exact ⟨rfl, Nat.le_antisymm (by omega) hinv.received_le⟩
    · simp at hfalse

theorem LrpcInv.empty_iff (hinv : LrpcInv size k s) (hidle : s.recvPc = .idle) :
    lrpcEmpty s.inn s.mem = true ↔ s.sent.length = s.received.length := by
  have hiff := hinv.parity_iff hidle
  have hle := hinv.received_le
  unfold lrpcEmpty
  rw [bne_iff_ne, ne_eq, hiff]
  omega

section Messages

variable {s t : LrpcState}

/-- What a step of the receiver can do, for a user of the channel who looks at
the messages handed over. -/
theorem recvStep_cases (s : LrpcState) :
    (s.recvPc = .idle ∧ s.recvStep = (s, some none)) ∨
    (∃ t, s.recvStep = (t, none) ∧ t.received = s.received ∧
      (s.recvPc = .idle → lrpcEmpty s.inn s.mem = false)) ∨
    ∃ t msg, s.recvStep = (t, some (some msg)) ∧ s.recvPc ≠ .idle ∧
      t.recvPc = .idle ∧ t.received = s.received ++ [msg] := by
  unfold LrpcState.recvStep lrpcEmpty
  cases hpc : s.recvPc with
  | idle =>
    dsimp only
    split
    · exact .inl ⟨rfl, rfl⟩
    · rename_i hparity
      refine .inr (.inl ⟨_, rfl, rfl, fun _ => ?_⟩)
      rw [not_not.mp hparity, bne_self_eq_false]
  | payload cmd =>
    exact .inr (.inl ⟨_, rfl, rfl, fun hidle => by cases hidle⟩)
  | writeBack msg =>
    exact .inr (.inr ⟨_, msg, rfl, by simp, rfl, rfl⟩)

def SendPc.msgs : SendPc → List LrpcMsg
  | .idle => []
  | .full msg | .retry msg => [msg]
  | .payload _ _ msg | .publish _ _ msg => [msg]

def LrpcState.offered (s : LrpcState) : List LrpcMsg :=
  s.sent ++ s.sendPc.msgs

theorem recvStep_offered (s : LrpcState) :
    s.recvStep.1.offered = s.offered := by
  unfold LrpcState.recvStep
  cases s.recvPc with
  | idle =>
    dsimp only
    split <;> rfl
  | payload cmd => rfl
  | writeBack msg => rfl

theorem sendCall_offered (hidle : s.sendPc = .idle) (msg : LrpcMsg) :
    (s.sendCall msg).offered = s.offered ++ [msg] := by
  unfold LrpcState.sendCall LrpcState.offered
  rw [hidle, SendPc.msgs, List.append_nil]
  split <;> rfl

theorem sendStep_offered {ret : Option Bool}
    (hstep : s.sendStep = some (t, ret)) : t.offered ⊆ s.offered := by
  unfold LrpcState.sendStep at hstep
  unfold LrpcState.offered
  cases hpc : s.sendPc with
  | idle => simp [hpc] at hstep
  | full msg =>
    simp only [hpc] at hstep
    split at hstep
    · cases hstep
      simp [SendPc.msgs]
    · cases hstep
      exact List.Subset.refl _
  | retry msg | payload _ _ msg | publish _ _ msg =>
    simp only [hpc] at hstep
    cases hstep
    simp [SendPc.msgs]

theorem sendCall_receiver (s : LrpcState) (msg : LrpcMsg) :
    (s.sendCall msg).received = s.received ∧
    (s.sendCall msg).recvPc = s.recvPc := by
  unfold LrpcState.sendCall
  split <;> exact ⟨rfl, rfl⟩

theorem sendStep_receiver {ret : Option Bool}
    (hstep : s.sendStep = some (t, ret)) :
    t.received = s.received ∧ t.recvPc = s.recvPc := by
  unfold LrpcState.sendStep at hstep
  cases hpc : s.sendPc with
  | idle => simp [hpc] at hstep
  | full msg =>
    simp only [hpc] at hstep
    split at hstep <;>
    · cases hstep
      exact ⟨rfl, rfl⟩
  | retry msg | payload _ _ msg | publish _ _ msg =>
    simp only [hpc] at hstep
    cases hstep
    exact ⟨rfl, rfl⟩

end Messages

/-- For every size the two init functions accept and every interleaving of a
sender and a receiver at the granularity of single shared accesses, of any
length and past any number of counter wraps: what has been received is an
initial segment of what has been sent, at most `size` messages are under way,
`lrpc_send` returns false only when `size` messages are not acknowledged in
the write-back word, and `lrpc_recv` returns false (`lrpc_empty` returns true)
only when the next message has not been published. -/
theorem lrpc_channel_is_bounded_fifo (size : BitVec 32) (s : LrpcState)
    (hs : (lrpcSystem size).Reach anyStep s) :
    s.received <+: s.sent ∧
    s.sent.length ≤ s.received.length + size.toNat ∧
    (∀ t, s.sendStep = some (t, some false) →
      s.sent.length = s.received.length + size.toNat ∧
      s.mem.recvHeadWb = BitVec.ofNat 32 s.received.length) ∧
    (∀ t, s.recvStep = (t, some none) → s.sent.length = s.received.length) ∧
    (s.recvPc = .idle → lrpcEmpty s.inn s.mem = true →
      s.sent.length = s.received.length) := by
  obtain ⟨k, hsize⟩ := lrpc_size_pow hs
  have hinv := lrpc_inv hsize hs
  obtain ⟨tail, _, hle, hroom⟩ := hinv.window
  refine ⟨hinv.order, by omega, ?_, ?_, ?_⟩
  · intro t hfalse
    exact ⟨hinv.send_false hsize hfalse, hinv.writeBack⟩
  · intro t hfalse
    exact (hinv.recv_false hfalse).2
  · intro hidle
    exact (hinv.empty_iff hidle).mp

def lrpcStart (size : BitVec 32) : LrpcState where
  out := ⟨0, 0, 0, 0, size⟩
  inn := ⟨0, 0, 0, size⟩
  mem := ⟨fun _ => ⟨0, 0⟩, 0⟩
  sendPc := .idle
  recvPc := .idle
  sent := []
  received := []

theorem lrpcStart_reach (size : BitVec 32) (hpow : isPowerOfTwo size = true) :
    (lrpcSystem size).Reach anyStep (lrpcStart size) := by
  apply System.Reach.init
  refine ⟨⟨0, 0, ?_, ?_⟩, rfl, rfl, rfl, rfl, rfl, rfl⟩
  · simp [lrpcInitOut, hpow, lrpcStart]
  · simp [lrpcInitIn, hpow, lrpcStart]

/-- Three messages go through a channel of two slots. The first is received, and
its slot takes the third. The fourth `lrpc_send` is refused, because two
messages are not acknowledged. -/
theorem lrpc_two_slots_full :
    ∃ s t, (lrpcSystem 2).Reach anyStep s ∧
      s.sendStep = some (t, some false) ∧
      s.sent = [⟨7, 9⟩, ⟨8, 1⟩, ⟨5, 2⟩] ∧ s.received = [⟨7, 9⟩] ∧
      s.sent.length = s.received.length + (2 : BitVec 32).toNat := by
  have hstart := lrpcStart_reach 2 (by decide)
  have hs := hstart.exec
    [.send ⟨7, 9⟩, .sender, .sender, .send ⟨8, 1⟩, .sender, .sender,
      .receiver, .receiver, .receiver, .send ⟨5, 2⟩, .sender, .sender, .sender,
      .send ⟨6, 3⟩] rfl
  exact ⟨_, _, hs, rfl, rfl, rfl,
    ((lrpc_channel_is_bounded_fifo 2 _ hs).2.2.1 _ rfl).1⟩

end Libut.Base
