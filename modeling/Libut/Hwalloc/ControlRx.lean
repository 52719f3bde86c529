import Libut.Base.LrpcFifo
import Libut.Hwalloc.DataplaneFrame

/-!
Control messages on their way to the dataplane. The control thread sends them
over a channel of 128 slots (`hwalloc/control.c`), and
`dp_clients_rx_control_lrpcs` takes them off in bursts (`hwalloc/dataplane.c`).

Both sides of the channel move one shared access at a time, as in `Lrpc`; the
body of the loop is one step, since nobody else writes what it writes. Between
two calls the dataplane does its other work, and the control thread creates
procs and marks them removed whenever it likes.
-/

namespace Libut.Hwalloc

open Machine Base

def hwallocdControlBurstSize : Nat := 4

def controlDataplaneQueueSize : BitVec 32 := 128

def dataplaneAddClient : BitVec 64 := 0

def dataplaneRemoveClient : BitVec 64 := 1

/-- A `struct proc *`, which is the payload of a control message. -/
abbrev ProcPtr := BitVec 64

/-- The `switch` of `dp_clients_rx_control_lrpcs`; an unknown command is only
logged. -/
def Dataplane.dispatch (s : Dataplane ProcPtr) (msg : LrpcMsg) :
    Except Fault (Dataplane ProcPtr) :=
  if msg.cmd = dataplaneAddClient then s.dpClientsAddClient msg.payload
  else if msg.cmd = dataplaneRemoveClient then
    s.dpClientsRemoveClient msg.payload
  else .ok s

inductive RxPc
  | out
  /-- The `lrpc_recv` of the loop condition is under way. -/
  | recv (nRx : Nat)
  /-- The condition held; the body of the loop is next. -/
  | dispatch (nRx : Nat) (msg : LrpcMsg)
  deriving DecidableEq, Repr

def RxPc.inHand : RxPc → List LrpcMsg
  | .out | .recv _ => []
  | .dispatch _ msg => [msg]

/-- `dispatched` lists the messages the `switch` has been through. -/
structure ControlState where
  chan : LrpcState
  dp : Dataplane ProcPtr
  pc : RxPc
  dispatched : List LrpcMsg

/-- The next step of `dp_clients_rx_control_lrpcs`. The loop condition calls
`lrpc_recv` before it looks at `n_rx`. -/
def ControlState.rxStep (s : ControlState) : Option ControlState :=
  match s.pc with
  | .out => some { s with pc := .recv 0 }
  | .recv nRx =>
    match s.chan.recvStep with
    | (chan, none) => some { s with chan := chan }
    | (chan, some none) => some { s with chan := chan, pc := .out }
    | (chan, some (some msg)) =>
      some
        { s with
          chan := chan
          pc :=
            if nRx < hwallocdControlBurstSize then .dispatch nRx msg
            else .out }
  | .dispatch nRx msg =>
    match s.dp.dispatch msg with
    | .error _ => none
    | .ok dp =>
      some
        { s with
          dp := dp
          pc := .recv (nRx + 1)
          dispatched := s.dispatched ++ [msg] }

inductive ControlAct
  | send (msg : LrpcMsg)
  | sender
  | rx
  /-- What else the two threads do to the dataplane's records. -/
  | other (a : DpAct ProcPtr)

/-- The control thread's stores happen at any time, the other calls of the
dataplane loop outside `dp_clients_rx_control_lrpcs`. -/
def RxPc.admits (pc : RxPc) : DpAct ProcPtr → Bool
  | .create .. | .setRemoved _ => true
  | .add _ | .remove _ => false
  | .parked .. | .parkedLast .. | .rxSend .. | .adjust _ => pc = .out

def controlNext (s : ControlState) : ControlAct → Option ControlState
  | .send msg =>
    if msg.cmd = dataplaneAddClient ∨ msg.cmd = dataplaneRemoveClient then
      ((lrpcSystem controlDataplaneQueueSize).next s.chan (.send msg)).map
        fun chan => { s with chan := chan }
    else none
  | .sender =>
    ((lrpcSystem controlDataplaneQueueSize).next s.chan .sender).map
      fun chan => { s with chan := chan }
  | .rx => s.rxStep
  | .other a =>
    if s.pc.admits a then (dpNext s.dp a).map fun dp => { s with dp := dp }
    else none

def controlSystem : System ControlState ControlAct where
  init s :=
    (lrpcSystem controlDataplaneQueueSize).init s.chan ∧
    (dpSystem ProcPtr).init s.dp ∧ s.pc = .out ∧ s.dispatched = []
  next := controlNext

/-- What one message does to `dp.clients`. -/
def applyMsg (clients : List ProcPtr) (msg : LrpcMsg) : List ProcPtr :=
  if msg.cmd = dataplaneAddClient then clients ++ [msg.payload]
  else if msg.cmd = dataplaneRemoveClient then dropFrom clients msg.payload
  else clients

def clientsAfter (msgs : List LrpcMsg) : List ProcPtr :=
  msgs.foldl applyMsg []

/-- The condition under which no message is lost: when the loop condition is
evaluated with a full burst behind it, the channel is empty. -/
def burstOk (s : ControlState) : ControlAct → Prop
  | .rx => s.pc = .recv hwallocdControlBurstSize → s.chan.recvPc = .idle →
      lrpcEmpty s.chan.inn s.chan.mem = true
  | _ => True

instance (s : ControlState) : (a : ControlAct) → Decidable (burstOk s a)
  | .rx => inferInstanceAs (Decidable (_ → _ → _))
  | .send _ | .sender | .other _ => inferInstanceAs (Decidable True)

section Clients

theorem dispatch_clients (s : Dataplane ProcPtr) (msg : LrpcMsg) :
    Meets anyFailure (s.dispatch msg) fun t =>
      t.procs.clients = applyMsg s.procs.clients msg := by
  unfold Dataplane.dispatch applyMsg
  split_ifs
  · apply (dpClientsAddClient_procs s msg.payload).imp
    exact fun t ht => congrArg ProcTable.clients ht
  · apply (dpClientsRemoveClient_procs s msg.payload).imp
    exact fun t ht => congrArg ProcTable.clients ht
  · rfl

theorem clientsAfter_snoc (msgs : List LrpcMsg) (msg : LrpcMsg) :
    clientsAfter (msgs ++ [msg]) = applyMsg (clientsAfter msgs) msg := by
  unfold clientsAfter
  rw [List.foldl_append, List.foldl_cons, List.foldl_nil]

theorem dpNext_clients {s t : Dataplane ProcPtr} {a : DpAct ProcPtr} {pc : RxPc}
    (hadmits : pc.admits a = true) (hnext : dpNext s a = some t) :
    t.procs.clients = s.procs.clients := by
  rw [dpNext_procs hnext]
  cases a with
  | add p => cases hadmits
  | remove p => cases hadmits
  | create | setRemoved | parked | parkedLast | rxSend | adjust => rfl

end Clients

section Runs

variable {s t : ControlState}

/-- Between bursts the receiver is idle, and with a full burst behind it the
loop does not begin to receive. -/
def RxPc.Ok (recvPc : RecvPc) : RxPc → Prop
  | .out => recvPc = .idle
  | .recv nRx => nRx ≤ hwallocdControlBurstSize ∧
      (nRx = hwallocdControlBurstSize → recvPc = .idle)
  | .dispatch nRx _ => nRx < hwallocdControlBurstSize ∧ recvPc = .idle

structure ControlInv (s : ControlState) : Prop where
  chan : LrpcInv controlDataplaneQueueSize 7 s.chan
  known : ∀ m ∈ s.chan.offered,
    m.cmd = dataplaneAddClient ∨ m.cmd = dataplaneRemoveClient
  pc : s.pc.Ok s.chan.recvPc
  handled : s.dispatched ++ s.pc.inHand = s.chan.received
  clients : s.dp.procs.clients = clientsAfter s.dispatched

theorem controlQueueSize_toNat :
    controlDataplaneQueueSize.toNat = 2 ^ 7 := rfl

theorem controlInv_init (hs : controlSystem.init s) : ControlInv s := by
  obtain ⟨hchan, ⟨cpuCount, usable, _, hdp⟩, hpc, hdispatched⟩ := hs
  have hinv := lrpcInv_init controlQueueSize_toNat hchan
  obtain ⟨_, _, _, hsend, hrecv, hsent, hreceived⟩ := hchan
  refine ⟨hinv, ?_, ?_, ?_, ?_⟩
  · simp [LrpcState.offered, hsent, hsend, SendPc.msgs]
  · rw [hpc]
    exact hrecv
  · rw [hpc, hdispatched, hreceived]
    rfl
  · rw [hdp, hdispatched]
    rfl

theorem ControlInv.sender {chan : LrpcState} (h : ControlInv s)
    (hchan : LrpcInv controlDataplaneQueueSize 7 chan)
    (hknown : ∀ m ∈ chan.offered,
      m.cmd = dataplaneAddClient ∨ m.cmd = dataplaneRemoveClient)
    (hreceiver : chan.received = s.chan.received ∧
      chan.recvPc = s.chan.recvPc) :
    ControlInv { s with chan := chan } := by
  refine ⟨hchan, hknown, ?_, ?_, h.clients⟩
  · rw [hreceiver.2]
    exact h.pc
  · rw [hreceiver.1]
    exact h.handled

/-- The `lrpc_recv` of the loop condition. Only here can a message be taken
off the channel; if it is, the burst is not full and the body follows. -/
theorem ControlInv.recv {nRx : Nat} (h : ControlInv s) (hpc : s.pc = .recv nRx)
    (hok : burstOk s .rx) (hnext : s.rxStep = some t) : ControlInv t := by
  have hchan := h.chan.recvStep
  have hknown := h.known
  rw [← recvStep_offered s.chan] at hknown
  have hrx := h.pc
  have hhandled := h.handled
  rw [hpc] at hrx hhandled
  obtain ⟨hle, hfull⟩ := hrx
  unfold ControlState.rxStep at hnext
  rcases recvStep_cases s.chan with
    ⟨hidle, hrecv⟩ | ⟨chan, hrecv, hreceived, hfound⟩ |
    ⟨chan, msg, hrecv, hbusy, hidle, hreceived⟩
  · rw [hpc, hrecv] at hnext
    cases hnext
    exact ⟨h.chan, h.known, hidle, hhandled, h.clients⟩
  · rw [hpc, hrecv] at hnext
    cases hnext
    rw [hrecv] at hchan hknown
    refine ⟨hchan, hknown, ⟨hle, fun heq => ?_⟩,
      hhandled.trans hreceived.symm, h.clients⟩
    -- after a full burst the channel would have been found empty
    have hempty := hok (heq ▸ hpc) (hfull heq)
    exact Bool.noConfusion (hempty.symm.trans (hfound (hfull heq)))
  · have hlt : nRx < hwallocdControlBurstSize :=
      lt_of_le_of_ne hle fun heq => hbusy (hfull heq)
    rw [hpc, hrecv] at hnext
    simp only [if_pos hlt] at hnext
    cases hnext
    rw [hrecv] at hchan hknown
    refine ⟨hchan, hknown, ⟨hlt, hidle⟩, ?_, h.clients⟩
    change s.dispatched ++ [msg] = chan.received
    rw [hreceived, ← hhandled, RxPc.inHand, List.append_nil]

theorem ControlInv.rxStep (h : ControlInv s) (hok : burstOk s .rx)
    (hnext : s.rxStep = some t) : ControlInv t := by
  cases hpc : s.pc with
  | recv nRx => exact h.recv hpc hok hnext
  | out =>
    have hidle := h.pc
    have hhandled := h.handled
    rw [hpc] at hidle hhandled
    simp only [ControlState.rxStep, hpc] at hnext
    cases hnext
    exact ⟨h.chan, h.known, ⟨Nat.zero_le _, fun _ => hidle⟩, hhandled,
      h.clients⟩
  | dispatch nRx msg =>
    have hrx := h.pc
    have hhandled := h.handled
    rw [hpc] at hrx hhandled
    have hclients := dispatch_clients s.dp msg
    simp only [ControlState.rxStep, hpc] at hnext
    cases hdispatch : s.dp.dispatch msg with
    | error f =>
      rw [hdispatch] at hnext
      cases hnext
    | ok dp =>
      rw [hdispatch] at hnext
      cases hnext
      refine ⟨h.chan, h.known, ⟨hrx.1, fun _ => hrx.2⟩, ?_, ?_⟩
      · change s.dispatched ++ [msg] ++ [] = s.chan.received
        rw [List.append_nil]
        exact hhandled
      · change dp.procs.clients = clientsAfter (s.dispatched ++ [msg])
        rw [clientsAfter_snoc, ← h.clients]
        exact hclients.of_ok hdispatch

theorem ControlInv.next {a : ControlAct} (h : ControlInv s) (hok : burstOk s a)
    (hnext : controlSystem.next s a = some t) : ControlInv t := by
  cases a with
  | send msg =>
    simp only [controlSystem, controlNext] at hnext
    split_ifs at hnext with hcmd
    obtain ⟨chan, hsend, rfl⟩ := Option.map_eq_some_iff.mp hnext
    have hchan := h.chan.next controlQueueSize_toNat hsend
    obtain ⟨hidle, rfl⟩ := guarded hsend
    apply h.sender hchan _ (sendCall_receiver s.chan msg)
    rw [sendCall_offered hidle.1 msg]
    intro m hm
    rcases List.mem_append.mp hm with hm | hm
    · exact h.known m hm
    · cases List.mem_singleton.mp hm
      exact hcmd
  | sender =>
    obtain ⟨chan, hsend, rfl⟩ := Option.map_eq_some_iff.mp hnext
    have hchan := h.chan.next controlQueueSize_toNat hsend
    obtain ⟨⟨chan, ret⟩, hstep, rfl⟩ := Option.map_eq_some_iff.mp hsend
    apply h.sender hchan _ (sendStep_receiver hstep)
    exact fun m hm => h.known m (sendStep_offered hstep hm)
  | rx => exact h.rxStep hok hnext
  | other a =>
    simp only [controlSystem, controlNext] at hnext
    split_ifs at hnext with hadmits
    obtain ⟨dp, hdp, rfl⟩ := Option.map_eq_some_iff.mp hnext
    refine ⟨h.chan, h.known, h.pc, h.handled, ?_⟩
    exact (dpNext_clients hadmits hdp).trans h.clients

/-- In every run whose steps all meet `burstOk`: the messages taken off the
channel are those dispatched, together with the one the loop is about to
dispatch; they are a prefix of what was sent, in order; each is an addition or
a removal; and `dp.clients` is the result of applying the dispatched ones. -/
theorem control_messages_dispatched (hs : controlSystem.Reach burstOk s) :
    s.dispatched ++ s.pc.inHand = s.chan.received ∧
    s.chan.received <+: s.chan.sent ∧
    (∀ m ∈ s.chan.sent,
      m.cmd = dataplaneAddClient ∨ m.cmd = dataplaneRemoveClient) ∧
    s.dp.procs.clients = clientsAfter s.dispatched := by
  have h : ControlInv s := hs.invariant (fun _ hinit => controlInv_init hinit)
    fun _ _ _ hinv hok hnext => hinv.next hok hnext
  refine ⟨h.handled, h.chan.order, fun m hm => ?_, h.clients⟩
  exact h.known m (List.mem_append_left _ hm)

def controlStart : ControlState where
  chan := lrpcStart controlDataplaneQueueSize
  dp := .boot 5 fun _ => true
  pc := .out
  dispatched := []

theorem controlStart_init : controlSystem.init controlStart := by
  have hpow : isPowerOfTwo controlDataplaneQueueSize = true := by decide
  refine ⟨⟨⟨0, 0, ?_, ?_⟩, rfl, rfl, rfl, rfl, rfl, rfl⟩,
    ⟨5, fun _ => true, by decide, rfl⟩, rfl, rfl⟩
  · simp [lrpcInitOut, hpow, controlStart, lrpcStart]
  · simp [lrpcInitIn, hpow, controlStart, lrpcStart]

def announce (p : ProcPtr) : List ControlAct :=
  [.other (.create p ⟨1, 1, 0, fun _ => ⟨0, 0, 0, 0, 4⟩⟩),
    .send ⟨dataplaneAddClient, p⟩, .sender, .sender]

/-- Four messages are sent, received and dispatched, as many as one call can;
the next `lrpc_recv` finds the channel empty. -/
def fullBurstRun : List ControlAct :=
  [4096, 8192, 12288, 16384].flatMap announce ++ List.replicate 18 .rx

theorem fullBurstRun_isSome :
    ((controlSystem.restrict fun s a => decide (burstOk s a)).exec
      controlStart fullBurstRun).isSome := by
  decide

def fullBurst : ControlState :=
  ((controlSystem.restrict fun s a => decide (burstOk s a)).exec
    controlStart fullBurstRun).get fullBurstRun_isSome

theorem control_messages_dispatched_burst :
    controlSystem.Reach burstOk fullBurst ∧ fullBurst.pc = .out ∧
      fullBurst.chan.sent.map LrpcMsg.payload = [4096, 8192, 12288, 16384] ∧
      fullBurst.dispatched = fullBurst.chan.sent ∧
      fullBurst.dp.procs.clients = clientsAfter fullBurst.dispatched ∧
      fullBurst.dp.procs.clients = [4096, 8192, 12288, 16384] := by
  have hs : controlSystem.Reach burstOk fullBurst :=
    .of_checked controlStart_init (Option.some_get fullBurstRun_isSome).symm
  exact ⟨hs, by decide, by decide, by decide,
    (control_messages_dispatched hs).2.2.2, by decide⟩

def fiveMessagesRun : List ControlAct :=
  [4096, 8192, 12288, 16384, 20480].flatMap announce ++
    List.replicate 20 .rx

theorem fiveMessagesRun_isSome :
    (controlSystem.exec controlStart fiveMessagesRun).isSome := by
  decide

def fiveMessages : ControlState :=
  (controlSystem.exec controlStart fiveMessagesRun).get fiveMessagesRun_isSome

/-- The fifth `lrpc_recv` of the call takes the fifth message off the channel,
then `n_rx` ends the loop: the message is dispatched by nobody, and the fifth
runtime never becomes a client. -/
theorem fifth_message_dropped :
    ∃ s : ControlState, controlSystem.Reach anyStep s ∧ s.pc = .out ∧
      s.chan.sent.length = 5 ∧ s.chan.received = s.chan.sent ∧
      s.dispatched = s.chan.sent.take 4 ∧
      s.dp.procs.clients = [4096, 8192, 12288, 16384] ∧
      clientsAfter s.chan.received = [4096, 8192, 12288, 16384, 20480] := by
  have hs := System.Reach.exec (.init controlStart_init) fiveMessagesRun
    (Option.some_get fiveMessagesRun_isSome).symm
  exact ⟨fiveMessages, hs, by decide, by decide, by decide, by decide,
    by decide, by decide⟩

end Runs

end Libut.Hwalloc
