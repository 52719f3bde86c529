import Libut.Base.LrpcStale
import Libut.Hwalloc.ControlRx

/-!
Setting up the two channels between the control plane and the dataplane.
`control_init_dataplane_comm` allocates the message tables and the write-back
words and initializes its two ends; `dataplane_init` then initializes the other
two over the same memory. Neither clears what `malloc` returned.
-/

namespace Libut.Hwalloc

open Machine Base

structure LrpcParams where
  buffer : BitVec 64
  wb : BitVec 64
  deriving DecidableEq, Repr

/-- What the four calls of `malloc` return, `0` for `NULL`. -/
structure CommAlloc where
  bufferOut : BitVec 64
  wbOut : BitVec 64
  bufferIn : BitVec 64
  wbIn : BitVec 64
  deriving DecidableEq, Repr

structure ControlEnds where
  controlToDataParams : LrpcParams
  dataToControlParams : LrpcParams
  controlToData : LrpcChanOut
  dataToControl : LrpcChanIn

structure DataplaneEnds where
  controlToData : LrpcChanIn
  dataToControl : LrpcChanOut
  nrClients : Nat

/-- `control_init_dataplane_comm`; `none` is the return value `-1`, after which
everything allocated so far is freed. -/
def controlInitDataplaneComm (a : CommAlloc) : Option ControlEnds :=
  if a.bufferOut = 0 then none
  else if a.wbOut = 0 then none
  else
    match lrpcInitOut a.bufferOut controlDataplaneQueueSize a.wbOut with
    | .error _ => none
    | .ok out =>
      if a.bufferIn = 0 then none
      else if a.wbIn = 0 then none
      else
        match lrpcInitIn a.bufferIn controlDataplaneQueueSize a.wbIn with
        | .error _ => none
        | .ok inn =>
          some
            { controlToDataParams := ⟨a.bufferOut, a.wbOut⟩
              dataToControlParams := ⟨a.bufferIn, a.wbIn⟩
              controlToData := out
              dataToControl := inn }

def dataplaneInit (toData toControl : LrpcParams) : Option DataplaneEnds :=
  match lrpcInitIn toData.buffer controlDataplaneQueueSize toData.wb with
  | .error _ => none
  | .ok inn =>
    match lrpcInitOut toControl.buffer controlDataplaneQueueSize
        toControl.wb with
    | .error _ => none
    | .ok out =>
      some { controlToData := inn, dataToControl := out, nrClients := 0 }

structure CommMem where
  controlToData : LrpcMem
  dataToControl : LrpcMem

structure CommState where
  controlToData : LrpcState
  dataToControl : LrpcState

def commStart (mem : CommMem) (c : ControlEnds) (d : DataplaneEnds) :
    CommState where
  controlToData := ⟨c.controlToData, d.controlToData, mem.controlToData,
    .idle, .idle, [], []⟩
  dataToControl := ⟨d.dataToControl, c.dataToControl, mem.dataToControl,
    .idle, .idle, [], []⟩

inductive CommAct where
  | controlToData (a : LrpcAct)
  | dataToControl (a : LrpcAct)
  deriving DecidableEq, Repr

def commNext (s : CommState) : CommAct → Option CommState
  | .controlToData a =>
    ((lrpcSystem controlDataplaneQueueSize).next s.controlToData a).map
      fun chan => { s with controlToData := chan }
  | .dataToControl a =>
    ((lrpcSystem controlDataplaneQueueSize).next s.dataToControl a).map
      fun chan => { s with dataToControl := chan }

/-- The two channels, set up over memory that holds `mem`. -/
def commSystem (mem : CommMem) : System CommState CommAct where
  init s := ∃ a c d, controlInitDataplaneComm a = some c ∧
    dataplaneInit c.controlToDataParams c.dataToControlParams = some d ∧
    s = commStart mem c d
  next := commNext

theorem queueSize_toNat : controlDataplaneQueueSize.toNat = 2 ^ 7 := rfl

theorem initOut_queueSize (tbl wb : BitVec 64) :
    lrpcInitOut tbl controlDataplaneQueueSize wb =
      .ok ⟨tbl, wb, 0, 0, controlDataplaneQueueSize⟩ :=
  lrpcInitOut_ok_iff.mpr ⟨by decide, rfl⟩

theorem initIn_queueSize (tbl wb : BitVec 64) :
    lrpcInitIn tbl controlDataplaneQueueSize wb =
      .ok ⟨tbl, wb, 0, controlDataplaneQueueSize⟩ :=
  lrpcInitIn_ok_iff.mpr ⟨by decide, rfl⟩

theorem controlInitDataplaneComm_iff {a : CommAlloc} {c : ControlEnds} :
    controlInitDataplaneComm a = some c ↔
      (a.bufferOut ≠ 0 ∧ a.wbOut ≠ 0 ∧ a.bufferIn ≠ 0 ∧ a.wbIn ≠ 0) ∧
      c = { controlToDataParams := ⟨a.bufferOut, a.wbOut⟩
            dataToControlParams := ⟨a.bufferIn, a.wbIn⟩
            controlToData := ⟨a.bufferOut, a.wbOut, 0, 0,
              controlDataplaneQueueSize⟩
            dataToControl := ⟨a.bufferIn, a.wbIn, 0,
              controlDataplaneQueueSize⟩ } := by
  unfold controlInitDataplaneComm
  rw [initOut_queueSize, initIn_queueSize]
  by_cases hbufferOut : a.bufferOut = 0
  · simp [hbufferOut]
  · by_cases hwbOut : a.wbOut = 0
    · simp [hwbOut]
    · by_cases hbufferIn : a.bufferIn = 0
      · simp [hbufferIn]
      · by_cases hwbIn : a.wbIn = 0
        · simp [hwbIn]
        · simp only [hbufferOut, hwbOut, hbufferIn, hwbIn, if_false,
            Option.some.injEq, ne_eq, not_false_eq_true, and_self, true_and]
          exact eq_comm

theorem dataplaneInit_eq (toData toControl : LrpcParams) :
    dataplaneInit toData toControl =
      some ⟨⟨toData.buffer, toData.wb, 0, controlDataplaneQueueSize⟩,
        ⟨toControl.buffer, toControl.wb, 0, 0, controlDataplaneQueueSize⟩,
        0⟩ := by
  rw [dataplaneInit, initIn_queueSize]
  dsimp only
  rw [initOut_queueSize]

theorem comm_init_iff {mem : CommMem} {s : CommState} :
    (commSystem mem).init s ↔ ∃ a : CommAlloc,
      (a.bufferOut ≠ 0 ∧ a.wbOut ≠ 0 ∧ a.bufferIn ≠ 0 ∧ a.wbIn ≠ 0) ∧
      s = { controlToData := lrpcFresh a.bufferOut a.wbOut
              controlDataplaneQueueSize mem.controlToData
            dataToControl := lrpcFresh a.bufferIn a.wbIn
              controlDataplaneQueueSize mem.dataToControl } := by
  constructor
  · rintro ⟨a, c, d, hcontrol, hdata, rfl⟩
    obtain ⟨hmem, rfl⟩ := controlInitDataplaneComm_iff.mp hcontrol
    rw [dataplaneInit_eq] at hdata
    cases hdata
    exact ⟨a, hmem, rfl⟩
  · rintro ⟨a, hmem, rfl⟩
    have hcontrol := controlInitDataplaneComm_iff.mpr ⟨hmem, rfl⟩
    exact ⟨a, _, _, hcontrol, dataplaneInit_eq .., rfl⟩

theorem comm_inv {mem : CommMem} {s : CommState}
    (hcontrol : mem.controlToData.Blank controlDataplaneQueueSize)
    (hdata : mem.dataToControl.Blank controlDataplaneQueueSize)
    (hs : (commSystem mem).Reach anyStep s) :
    LrpcInv controlDataplaneQueueSize 7 s.controlToData ∧
      LrpcInv controlDataplaneQueueSize 7 s.dataToControl := by
  induction hs with
  | init hinit =>
    obtain ⟨a, -, rfl⟩ := comm_init_iff.mp hinit
    exact ⟨lrpcInv_blank queueSize_toNat hcontrol _ _,
      lrpcInv_blank queueSize_toNat hdata _ _⟩
  | @step s t a _ _ hnext ih =>
    cases a with
    | controlToData a =>
      obtain ⟨chan, hchan, rfl⟩ := Option.map_eq_some_iff.mp hnext
      exact ⟨ih.1.next queueSize_toNat hchan, ih.2⟩
    | dataToControl a =>
      obtain ⟨chan, hchan, rfl⟩ := Option.map_eq_some_iff.mp hnext
      exact ⟨ih.1, ih.2.next queueSize_toNat hchan⟩

section Lift

def someAlloc : CommAlloc := ⟨0x1000, 0x2000, 0x3000, 0x4000⟩

def commFresh (mem : CommMem) : CommState where
  controlToData := lrpcFresh someAlloc.bufferOut someAlloc.wbOut
    controlDataplaneQueueSize mem.controlToData
  dataToControl := lrpcFresh someAlloc.bufferIn someAlloc.wbIn
    controlDataplaneQueueSize mem.dataToControl

theorem commFresh_init (mem : CommMem) :
    (commSystem mem).init (commFresh mem) :=
  comm_init_iff.mpr ⟨someAlloc, by decide, rfl⟩

/-- A run of one channel is a run of both in which the other one rests. -/
theorem reach_controlToData {mem : CommMem} {chan : LrpcState}
    (hs : (lrpcOver someAlloc.bufferOut someAlloc.wbOut
      controlDataplaneQueueSize mem.controlToData).Reach anyStep chan) :
    (commSystem mem).Reach anyStep
      { commFresh mem with controlToData := chan } := by
  induction hs with
  | init hinit =>
    cases hinit
    exact .init (commFresh_init mem)
  | @step s t a _ _ hnext ih =>
    apply ih.step (a := .controlToData a) trivial
    exact Option.map_eq_some_iff.mpr ⟨t, hnext, rfl⟩

theorem reach_dataToControl {mem : CommMem} {chan : LrpcState}
    (hs : (lrpcOver someAlloc.bufferIn someAlloc.wbIn
      controlDataplaneQueueSize mem.dataToControl).Reach anyStep chan) :
    (commSystem mem).Reach anyStep
      { commFresh mem with dataToControl := chan } := by
  induction hs with
  | init hinit =>
    cases hinit
    exact .init (commFresh_init mem)
  | @step s t a _ _ hnext ih =>
    apply ih.step (a := .dataToControl a) trivial
    exact Option.map_eq_some_iff.mpr ⟨t, hnext, rfl⟩

end Lift

/-- For every contents of the allocated memory: along all interleavings both
channels deliver what was sent on them exactly if the memory is blank, that is
no message slot has its parity bit set and both write-back words are zero. -/
theorem comm_channels_deliver_iff (mem : CommMem) :
    (∀ s, (commSystem mem).Reach anyStep s →
      s.controlToData.Delivers ∧ s.dataToControl.Delivers) ↔
      mem.controlToData.Blank controlDataplaneQueueSize ∧
        mem.dataToControl.Blank controlDataplaneQueueSize := by
  constructor
  · intro hall
    constructor
    · apply blank_of_delivers queueSize_toNat
      intro chan hchan
      exact (hall _ (reach_controlToData hchan)).1
    · apply blank_of_delivers queueSize_toNat
      intro chan hchan
      exact (hall _ (reach_dataToControl hchan)).2
  · rintro ⟨hcontrol, hdata⟩ s hs
    obtain ⟨hinvControl, hinvData⟩ := comm_inv hcontrol hdata hs
    exact ⟨hinvControl.delivers, hinvData.delivers⟩

section Contents

def zeroMem : LrpcMem := ⟨fun _ => ⟨0, 0⟩, 0⟩

theorem zeroMem_blank : zeroMem.Blank controlDataplaneQueueSize := by
  have hzero : 0 &&& lrpcDoneParity = 0 := by decide
  exact ⟨fun _ _ => hzero, rfl⟩

theorem comm_channels_deliver_zero :
    zeroMem.Blank controlDataplaneQueueSize ∧
      ∀ s, (commSystem ⟨zeroMem, zeroMem⟩).Reach anyStep s →
        s.controlToData.Delivers ∧ s.dataToControl.Delivers :=
  ⟨zeroMem_blank,
    (comm_channels_deliver_iff _).mpr ⟨zeroMem_blank, zeroMem_blank⟩⟩

/-- A table in which an earlier owner of the memory left the word
`0x8000000000000001` in front. -/
def usedMem : LrpcMem :=
  ⟨fun i => if i = 0 then ⟨0x8000000000000001, 0x5000⟩ else ⟨0, 0⟩, 0⟩

/-- With that table, the dataplane's first `lrpc_recv` returns
`DATAPLANE_REMOVE_CLIENT` with a made-up pointer, before the control plane has
sent anything. -/
theorem stale_message_received :
    ∃ s, (commSystem ⟨usedMem, zeroMem⟩).Reach anyStep s ∧
      s.controlToData.sent = [] ∧
      s.controlToData.received = [⟨dataplaneRemoveClient, 0x5000⟩] ∧
      ¬ s.controlToData.Delivers := by
  have hstart := (System.Reach.init (commFresh_init ⟨usedMem, zeroMem⟩) :
    (commSystem _).Reach anyStep _)
  have hs := hstart.exec [.controlToData .receiver, .controlToData .receiver,
    .controlToData .receiver] rfl
  refine ⟨_, hs, rfl, rfl, fun h => ?_⟩
  have hle := h.order.length_le
  exact absurd hle (by decide)

end Contents

end Libut.Hwalloc
