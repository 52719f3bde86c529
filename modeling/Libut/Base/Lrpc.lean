import Libut.Machine.System

/-!
Shared memory channels (`inc/base/lrpc.h`, `base/lrpc.c`). A channel is a
table of `size` messages and one write-back word, both in memory shared by a
sender and a receiver; each side keeps its own free-running 32-bit position.
The first half of the module is the sequential meaning of every channel
function. The second half splits `lrpc_send` and `lrpc_recv` at each access
to shared memory, so that the two sides can be interleaved.
-/

namespace Libut.Base

inductive Errno where
  | EINVAL
  deriving DecidableEq, Repr

/-- `is_power_of_two` of `inc/base/stddef.h`. -/
def isPowerOfTwo {w : Nat} (x : BitVec w) : Bool :=
  x != 0 && x &&& (x - 1) == 0

structure LrpcMsg where
  cmd : BitVec 64
  payload : BitVec 64
  deriving DecidableEq, Repr

/-- `LRPC_DONE_PARITY`, the top bit of the command word. -/
def lrpcDoneParity : BitVec 64 := 1#64 <<< 63

def lrpcCmdMask : BitVec 64 := ~~~lrpcDoneParity

structure LrpcChanOut where
  tbl : BitVec 64
  recvHeadWb : BitVec 64
  sendHead : BitVec 32
  sendTail : BitVec 32
  size : BitVec 32
  deriving DecidableEq, Repr

structure LrpcChanIn where
  tbl : BitVec 64
  recvHeadWb : BitVec 64
  recvHead : BitVec 32
  size : BitVec 32
  deriving DecidableEq, Repr

/-- What the two pointers of a channel refer to. -/
structure LrpcMem where
  tbl : BitVec 32 → LrpcMsg
  recvHeadWb : BitVec 32

def lrpcInitOut (tbl : BitVec 64) (size : BitVec 32)
    (recvHeadWb : BitVec 64) : Except Errno LrpcChanOut :=
  if !isPowerOfTwo size then .error .EINVAL
  else .ok
    { tbl := tbl, recvHeadWb := recvHeadWb, sendHead := 0, sendTail := 0,
      size := size }

def lrpcInitIn (tbl : BitVec 64) (size : BitVec 32)
    (recvHeadWb : BitVec 64) : Except Errno LrpcChanIn :=
  if !isPowerOfTwo size then .error .EINVAL
  else .ok
    { tbl := tbl, recvHeadWb := recvHeadWb, recvHead := 0, size := size }

theorem lrpcInitOut_ok_iff {tbl wb : BitVec 64} {size : BitVec 32}
    {out : LrpcChanOut} :
    lrpcInitOut tbl size wb = .ok out ↔
      isPowerOfTwo size = true ∧ out = ⟨tbl, wb, 0, 0, size⟩ := by
  unfold lrpcInitOut
  cases hpow : isPowerOfTwo size <;> simp [eq_comm]

theorem lrpcInitIn_ok_iff {tbl wb : BitVec 64} {size : BitVec 32}
    {inn : LrpcChanIn} :
    lrpcInitIn tbl size wb = .ok inn ↔
      isPowerOfTwo size = true ∧ inn = ⟨tbl, wb, 0, size⟩ := by
  unfold lrpcInitIn
  cases hpow : isPowerOfTwo size <;> simp [eq_comm]

/-- The table index `head & (size - 1)`. -/
def lrpcSlot (head size : BitVec 32) : BitVec 32 := head &&& (size - 1)

/-- The parity a message published at `head` carries:
`(head & size) ? 0 : LRPC_DONE_PARITY`. -/
def lrpcParity (head size : BitVec 32) : BitVec 64 :=
  if head &&& size ≠ 0 then 0 else lrpcDoneParity

def LrpcMem.storePayload (mem : LrpcMem) (dst : BitVec 32)
    (payload : BitVec 64) : LrpcMem :=
  { mem with
    tbl := Function.update mem.tbl dst
      { mem.tbl dst with payload := payload } }

def LrpcMem.storeCmd (mem : LrpcMem) (dst : BitVec 32)
    (cmd : BitVec 64) : LrpcMem :=
  { mem with
    tbl := Function.update mem.tbl dst { mem.tbl dst with cmd := cmd } }

def lrpcPollSendTail (chan : LrpcChanOut) (recvHeadWb : BitVec 32) :
    LrpcChanOut :=
  { chan with sendTail := recvHeadWb }

def lrpcGetCachedLength (chan : LrpcChanOut) : BitVec 32 :=
  chan.sendHead - chan.sendTail

/-- `__lrpc_send`, entered with the cached window exhausted. -/
def lrpcSendSlow (chan : LrpcChanOut) (mem : LrpcMem)
    (cmd payload : BitVec 64) : LrpcChanOut × LrpcMem × Bool :=
  let chan := lrpcPollSendTail chan mem.recvHeadWb
  if chan.sendHead - chan.sendTail = chan.size then (chan, mem, false)
  else
    let dst := lrpcSlot chan.sendHead chan.size
    let mem := mem.storePayload dst payload
    let cmd := cmd ||| lrpcParity chan.sendHead chan.size
    ({ chan with sendHead := chan.sendHead + 1 }, mem.storeCmd dst cmd, true)

def lrpcSend (chan : LrpcChanOut) (mem : LrpcMem)
    (cmd payload : BitVec 64) : LrpcChanOut × LrpcMem × Bool :=
  if chan.size ≤ chan.sendHead - chan.sendTail then
    lrpcSendSlow chan mem cmd payload
  else
    let dst := lrpcSlot chan.sendHead chan.size
    let cmd := cmd ||| lrpcParity chan.sendHead chan.size
    let mem := mem.storePayload dst payload
    ({ chan with sendHead := chan.sendHead + 1 }, mem.storeCmd dst cmd, true)

def lrpcRecv (chan : LrpcChanIn) (mem : LrpcMem) :
    LrpcChanIn × LrpcMem × Option LrpcMsg :=
  let m := mem.tbl (lrpcSlot chan.recvHead chan.size)
  if m.cmd &&& lrpcDoneParity ≠ lrpcParity chan.recvHead chan.size then
    (chan, mem, none)
  else
    let chan := { chan with recvHead := chan.recvHead + 1 }
    (chan, { mem with recvHeadWb := chan.recvHead },
      some { cmd := m.cmd &&& lrpcCmdMask, payload := m.payload })

def lrpcEmpty (chan : LrpcChanIn) (mem : LrpcMem) : Bool :=
  (mem.tbl (lrpcSlot chan.recvHead chan.size)).cmd &&& lrpcDoneParity !=
    lrpcParity chan.recvHead chan.size

inductive SendPc where
  | idle
  /-- `__lrpc_send` has been called; the load of the write-back word is next. -/
  | full (msg : LrpcMsg)
  /-- `__lrpc_send` found room; its payload store is next. -/
  | retry (msg : LrpcMsg)
  /-- The fast path has advanced `send_head`; its payload store is next. -/
  | payload (dst : BitVec 32) (word : BitVec 64) (msg : LrpcMsg)
  /-- The release store of the command word is next. -/
  | publish (dst : BitVec 32) (word : BitVec 64) (msg : LrpcMsg)
  deriving DecidableEq, Repr

inductive RecvPc where
  | idle
  | payload (cmd : BitVec 64)
  | writeBack (msg : LrpcMsg)
  deriving DecidableEq, Repr

/-- Both ends of one channel. `sent` lists the messages whose `lrpc_send` has
returned true, `received` those whose `lrpc_recv` has returned true. -/
structure LrpcState where
  out : LrpcChanOut
  inn : LrpcChanIn
  mem : LrpcMem
  sendPc : SendPc
  recvPc : RecvPc
  sent : List LrpcMsg
  received : List LrpcMsg

/-- `lrpc_send` up to its first access to shared memory. -/
def LrpcState.sendCall (s : LrpcState) (msg : LrpcMsg) : LrpcState :=
  if s.out.size ≤ s.out.sendHead - s.out.sendTail then
    { s with sendPc := .full msg }
  else
    { s with
      out := { s.out with sendHead := s.out.sendHead + 1 }
      sendPc := .payload (lrpcSlot s.out.sendHead s.out.size)
        (msg.cmd ||| lrpcParity s.out.sendHead s.out.size) msg }

/-- The sender's next access. The second component is the value returned by
`lrpc_send` if this access is its last one. -/
def LrpcState.sendStep (s : LrpcState) : Option (LrpcState × Option Bool) :=
  match s.sendPc with
  | .idle => none
  | .full msg =>
    let out := lrpcPollSendTail s.out s.mem.recvHeadWb
    if out.sendHead - out.sendTail = out.size then
      some ({ s with out := out, sendPc := .idle }, some false)
    else some ({ s with out := out, sendPc := .retry msg }, none)
  | .retry msg =>
    let dst := lrpcSlot s.out.sendHead s.out.size
    some ({ s with
      mem := s.mem.storePayload dst msg.payload
      out := { s.out with sendHead := s.out.sendHead + 1 }
      sendPc := .publish dst
        (msg.cmd ||| lrpcParity s.out.sendHead s.out.size) msg }, none)
  | .payload dst word msg =>
    some ({ s with
      mem := s.mem.storePayload dst msg.payload
      sendPc := .publish dst word msg }, none)
  | .publish dst word msg =>
    some ({ s with
      mem := s.mem.storeCmd dst word
      sendPc := .idle
      sent := s.sent ++ [msg] }, some true)

/-- The receiver's next access; from `idle` this is the command load of a new
`lrpc_recv`. The second component is the value returned, if any: `some none`
stands for false. -/
def LrpcState.recvStep (s : LrpcState) :
    LrpcState × Option (Option LrpcMsg) :=
  match s.recvPc with
  | .idle =>
    let m := s.mem.tbl (lrpcSlot s.inn.recvHead s.inn.size)
    if m.cmd &&& lrpcDoneParity ≠ lrpcParity s.inn.recvHead s.inn.size then
      (s, some none)
    else
      ({ s with
        inn := { s.inn with recvHead := s.inn.recvHead + 1 }
        recvPc := .payload m.cmd }, none)
  | .payload cmd =>
    let slot := lrpcSlot (s.inn.recvHead - 1) s.inn.size
    ({ s with
      recvPc := .writeBack
        { cmd := cmd &&& lrpcCmdMask
          payload := (s.mem.tbl slot).payload } }, none)
  | .writeBack msg =>
    ({ s with
      mem := { s.mem with recvHeadWb := s.inn.recvHead }
      recvPc := .idle
      received := s.received ++ [msg] }, some (some msg))

inductive LrpcAct where
  | send (msg : LrpcMsg)
  | sender
  | receiver
  deriving DecidableEq, Repr

/-- One sender and one receiver on a channel of `size` messages. A command
must leave the parity bit clear, as `lrpc_send` asserts. -/
def lrpcSystem (size : BitVec 32) : Machine.System LrpcState LrpcAct where
  init s :=
    (∃ tbl wb, lrpcInitOut tbl size wb = .ok s.out ∧
      lrpcInitIn tbl size wb = .ok s.inn) ∧
    s.mem.tbl = (fun _ => { cmd := 0, payload := 0 }) ∧
    s.mem.recvHeadWb = 0 ∧
    s.sendPc = .idle ∧ s.recvPc = .idle ∧ s.sent = [] ∧ s.received = []
  next s
    | .send msg =>
      if s.sendPc = .idle ∧ msg.cmd &&& lrpcDoneParity = 0 then
        some (s.sendCall msg)
      else none
    | .sender => s.sendStep.map Prod.fst
    | .receiver => some s.recvStep.1

end Libut.Base
