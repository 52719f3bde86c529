import Libut.Base.LrpcFifo

/-!
The cached send window of a channel (`lrpc_get_cached_send_window` of
`inc/base/lrpc.h`). It is computed from what the sender remembers of the
receiver, which may be out of date, and a sender that counts on it is still
never refused.
-/

namespace Libut.Base

open Machine

def lrpcGetCachedSendWindow (chan : LrpcChanOut) : BitVec 32 :=
  chan.size - chan.sendHead + chan.sendTail

/-- The message that a step begins to send. -/
def LrpcAct.begun : LrpcAct → Option LrpcMsg
  | .send msg => some msg
  | .sender | .receiver => none

/-- The sender has not called `__lrpc_send`. -/
def SendPc.Fast : SendPc → Prop
  | .idle | .payload .. | .publish .. => True
  | .full _ | .retry _ => False

section Window

variable {size : BitVec 32} {k : Nat} {s t : LrpcState}

theorem LrpcInv.cached_window (hinv : LrpcInv size k s)
    (hsize : size.toNat = 2 ^ k) (hidle : s.sendPc = .idle) :
    ∃ tail ≤ s.received.length, s.sent.length ≤ tail + 2 ^ k ∧
      (s.out.sendHead - s.out.sendTail).toNat = s.sent.length - tail ∧
      (lrpcGetCachedSendWindow s.out).toNat =
        size.toNat - (s.sent.length - tail) := by
  obtain ⟨tail, -, hle, hroom, hdist⟩ :=
    hinv.cached_length hsize (by rw [hidle]; rfl)
  refine ⟨tail, hle, hroom, hdist, ?_⟩
  have hwindow : lrpcGetCachedSendWindow s.out =
      size - (s.out.sendHead - s.out.sendTail) := by
    rw [lrpcGetCachedSendWindow, hinv.outSize]
    bv_omega
  rw [hwindow, BitVec.toNat_sub_of_le, hdist]
  rw [BitVec.le_def, hdist]
  omega

/-- A call within the window takes a slot at once. -/
theorem sendCall_fast (msg : LrpcMsg) (hinv : LrpcInv size k s)
    (hsize : size.toNat = 2 ^ k) (hidle : s.sendPc = .idle)
    (hwindow : 0 < (lrpcGetCachedSendWindow s.out).toNat) :
    (s.sendCall msg).sendPc.Fast ∧
      (lrpcGetCachedSendWindow (s.sendCall msg).out).toNat + 1 =
        (lrpcGetCachedSendWindow s.out).toNat := by
  obtain ⟨tail, -, hroom, hdist, hlength⟩ := hinv.cached_window hsize hidle
  have hfree : ¬ s.out.size ≤ s.out.sendHead - s.out.sendTail := by
    rw [hinv.outSize, BitVec.le_def, hdist]
    omega
  unfold LrpcState.sendCall
  rw [if_neg hfree]
  refine ⟨trivial, ?_⟩
  unfold lrpcGetCachedSendWindow at hwindow ⊢
  bv_omega

theorem sendStep_fast {ret : Option Bool} (hfast : s.sendPc.Fast)
    (hstep : s.sendStep = some (t, ret)) :
    t.sendPc.Fast ∧ t.out = s.out ∧ t.offered = s.offered := by
  unfold LrpcState.sendStep at hstep
  unfold LrpcState.offered
  cases hpc : s.sendPc with
  | idle => simp [hpc] at hstep
  | full msg | retry msg =>
    rw [hpc] at hfast
    exact hfast.elim
  | payload dst word msg | publish dst word msg =>
    simp only [hpc] at hstep
    cases hstep
    exact ⟨trivial, rfl, by simp [SendPc.msgs]⟩

theorem recvStep_sender (s : LrpcState) :
    s.recvStep.1.sendPc = s.sendPc ∧ s.recvStep.1.out = s.out := by
  unfold LrpcState.recvStep
  cases s.recvPc with
  | idle =>
    dsimp only
    split <;> exact ⟨rfl, rfl⟩
  | payload cmd => exact ⟨rfl, rfl⟩
  | writeBack msg => exact ⟨rfl, rfl⟩

/-- One step of a sender that stays within its window. -/
theorem LrpcInv.next_fast {a : LrpcAct} {left : Nat} (hinv : LrpcInv size k s)
    (hsize : size.toNat = 2 ^ k) (hfast : s.sendPc.Fast)
    (hleft : a.begun.toList.length + left ≤
      (lrpcGetCachedSendWindow s.out).toNat)
    (hnext : (lrpcSystem size).next s a = some t) :
    t.sendPc.Fast ∧ left ≤ (lrpcGetCachedSendWindow t.out).toNat ∧
      t.offered = s.offered ++ a.begun.toList := by
  cases a with
  | send msg =>
    obtain ⟨hcall, rfl⟩ := guarded hnext
    change 1 + left ≤ _ at hleft
    obtain ⟨hfast', hwindow⟩ :=
      sendCall_fast msg hinv hsize hcall.1 (by omega)
    exact ⟨hfast', by omega, sendCall_offered hcall.1 msg⟩
  | sender =>
    obtain ⟨⟨u, ret⟩, hstep, rfl⟩ := Option.map_eq_some_iff.mp hnext
    obtain ⟨hfast', hout, hoffered⟩ := sendStep_fast hfast hstep
    change 0 + left ≤ _ at hleft
    rw [hout, hoffered]
    exact ⟨hfast', by omega, (List.append_nil _).symm⟩
  | receiver =>
    cases hnext
    obtain ⟨hpc, hout⟩ := recvStep_sender s
    change 0 + left ≤ _ at hleft
    rw [hpc, hout, recvStep_offered]
    exact ⟨hfast, by omega, (List.append_nil _).symm⟩

theorem LrpcInv.exec_fast {labels : List LrpcAct} (hinv : LrpcInv size k s)
    (hsize : size.toNat = 2 ^ k) (hfast : s.sendPc.Fast)
    (hleft : (labels.filterMap LrpcAct.begun).length ≤
      (lrpcGetCachedSendWindow s.out).toNat)
    (hrun : (lrpcSystem size).exec s labels = some t) :
    t.sendPc.Fast ∧
      t.offered = s.offered ++ labels.filterMap LrpcAct.begun := by
  induction labels generalizing s with
  | nil =>
    cases hrun
    exact ⟨hfast, (List.append_nil _).symm⟩
  | cons a rest ih =>
    obtain ⟨u, hnext, hrest⟩ := System.exec_cons.mp hrun
    have hsplit : (a :: rest).filterMap LrpcAct.begun =
        a.begun.toList ++ rest.filterMap LrpcAct.begun := by
      cases a <;> rfl
    rw [hsplit, List.length_append] at hleft
    obtain ⟨hu, hwindow, hoffered⟩ := hinv.next_fast hsize hfast hleft hnext
    obtain ⟨ht, hall⟩ := ih (hinv.next hsize hnext) hu hwindow hrest
    rw [hall, hoffered, hsplit, List.append_assoc]
    exact ⟨ht, rfl⟩

end Window

/-- In every state of a channel, between two calls of `lrpc_send`, the cached
window is at most the number of slots that are free. Whatever the receiver does
meanwhile, as many calls as the window says send their messages: none of them
reads the write-back word, and none is refused. -/
theorem lrpc_cached_window_sends {size : BitVec 32} {s t : LrpcState}
    {labels : List LrpcAct} (hs : (lrpcSystem size).Reach anyStep s)
    (hidle : s.sendPc = .idle)
    (hcount : (labels.filterMap LrpcAct.begun).length ≤
      (lrpcGetCachedSendWindow s.out).toNat)
    (hrun : (lrpcSystem size).exec s labels = some t) :
    (lrpcGetCachedSendWindow s.out).toNat + s.sent.length ≤
      s.received.length + size.toNat ∧
    t.sent ++ t.sendPc.msgs = s.sent ++ labels.filterMap LrpcAct.begun ∧
    t.sendPc.Fast := by
  obtain ⟨k, hsize⟩ := lrpc_size_pow hs
  have hinv := lrpc_inv hsize hs
  obtain ⟨tail, hle, hroom, -, hwindow⟩ := hinv.cached_window hsize hidle
  have hfast : s.sendPc.Fast := hidle ▸ trivial
  have hoffered : s.offered = s.sent := by
    rw [LrpcState.offered, hidle]
    exact List.append_nil _
  obtain ⟨ht, hall⟩ := hinv.exec_fast hsize hfast hcount hrun
  rw [hoffered] at hall
  have hrecv := hinv.received_le
  exact ⟨by omega, hall, ht⟩

/-- Two messages through the two slots of a new channel. -/
theorem lrpc_cached_window_sends_two :
    ∃ t, (lrpcSystem 2).exec (lrpcStart 2)
        [.send ⟨7, 9⟩, .sender, .sender, .receiver, .send ⟨8, 1⟩] = some t ∧
      t.sent ++ t.sendPc.msgs = [⟨7, 9⟩, ⟨8, 1⟩] ∧ t.sendPc.Fast := by
  obtain ⟨t, ht⟩ : ∃ t, (lrpcSystem 2).exec (lrpcStart 2)
      [.send ⟨7, 9⟩, .sender, .sender, .receiver, .send ⟨8, 1⟩] = some t :=
    ⟨_, rfl⟩
  have hstart := lrpcStart_reach 2 (by decide)
  exact ⟨t, ht, (lrpc_cached_window_sends hstart rfl (by decide) ht).2⟩

end Libut.Base
