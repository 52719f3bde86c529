import Libut.Base.LrpcFifo
import Libut.Runtime.TimerArming
import Libut.Runtime.TimerSoftirq

/-!
Softirq processing (`runtime/softirq.c`): a first pass takes commands off the
receive queue of a kthread, a second one handles its timers and joins the
kthreads that the commands name. One budget is meant to cover both. What
`join_kthread` does is in `JoinKthread`; here it is the list of its calls.
-/

namespace Libut.Runtime

open Base

def softirqMaxBudget : Nat := 128

def rxcmdJoin : BitVec 64 := 0

structure SoftirqWork (κ : Type) where
  recvCnt : Nat
  complCnt : Nat
  joinCnt : Nat
  timerBudget : BitVec 32
  k : κ
  joinReqs : Nat → BitVec 64

/-- What the loop of `softirq_gather_work` changes: the queue and the requests
recorded so far. -/
structure Gather where
  chan : LrpcChanIn
  mem : LrpcMem
  joinCnt : Nat
  joinReqs : Nat → BitVec 64

/-- The `switch` of `softirq_gather_work`. An unknown command is only logged. -/
def Gather.command (g : Gather) (m : LrpcMsg) : Gather :=
  if m.cmd = rxcmdJoin then
    { g with
      joinCnt := g.joinCnt + 1
      joinReqs := Function.update g.joinReqs g.joinCnt m.payload }
  else g

/-- The loop of `softirq_gather_work`, entered with `budgetLeft` before the
test; the value of `budget_left` it ends with comes last. -/
def gatherLoop : (budgetLeft : Nat) → Gather → Gather × Int
  -- the test decrements before it fails
  | 0, g => (g, -1)
  | budgetLeft + 1, g =>
    match lrpcRecv g.chan g.mem with
    | (_, _, none) => (g, budgetLeft)
    | (chan, mem, some m) =>
      gatherLoop budgetLeft ({ g with chan := chan, mem := mem }.command m)

/-- `softirq_gather_work`, with what `join_reqs` held before. -/
def softirqGatherWork {κ : Type} (k : κ) (budget : BitVec 32)
    (joinReqs : Nat → BitVec 64) (chan : LrpcChanIn) (mem : LrpcMem) :
    SoftirqWork κ × LrpcChanIn × LrpcMem :=
  let (g, budgetLeft) :=
    gatherLoop (min budget.toNat softirqMaxBudget) ⟨chan, mem, 0, joinReqs⟩
  ({ recvCnt := 0
     complCnt := 0
     joinCnt := g.joinCnt
     timerBudget := BitVec.ofInt 32 budgetLeft
     k := k
     joinReqs := g.joinReqs }, g.chan, g.mem)

def SoftirqWork.joins {κ : Type} (w : SoftirqWork κ) : List (BitVec 64) :=
  (List.range w.joinCnt).map w.joinReqs

section Fn

variable {κ ε : Type} [DecidableEq κ] [DecidableEq ε]

/-- `softirq_fn`: the timers afterwards and the calls of `join_kthread`. The
first reading of the clock is that of `timer_needed`. -/
def softirqFn (w : SoftirqWork κ) (s : TimerState κ ε) (clock : Nat → Nat) :
    TimerState κ ε × List (BitVec 64) :=
  (if timerExpired s w.k (clock 0) then
      timerSoftirqCall s w.k w.timerBudget fun j => clock (j + 1)
    else s, w.joins)

end Fn

/-- The commands that a queue holds: what `lrpc_recv` returns, call after
call, until it finds nothing. -/
inductive Holds : LrpcChanIn → LrpcMem → List LrpcMsg → Prop
  | nil {chan : LrpcChanIn} {mem : LrpcMem}
      (hrecv : lrpcRecv chan mem = (chan, mem, none)) : Holds chan mem []
  | cons {chan chan' : LrpcChanIn} {mem mem' : LrpcMem} {m : LrpcMsg}
      {q : List LrpcMsg} (hrecv : lrpcRecv chan mem = (chan', mem', some m))
      (hrest : Holds chan' mem' q) : Holds chan mem (m :: q)

def joinsOf (q : List LrpcMsg) : List (BitVec 64) :=
  (q.filter (·.cmd = rxcmdJoin)).map LrpcMsg.payload

section Queue

/-- Either the queue runs empty within `n` calls, or the next `n` slots all
carry the parity of their position. -/
theorem holds_or_published (n : Nat) (chan : LrpcChanIn) (mem : LrpcMem)
    (head : Nat) (hhead : chan.recvHead = BitVec.ofNat 32 head) :
    (∃ q, Holds chan mem q) ∨ ∀ i < n,
      (mem.tbl (slotOf chan.size (head + i))).cmd &&& lrpcDoneParity =
        parityOf chan.size (head + i) := by
  induction n generalizing chan mem head with
  | zero => exact .inr fun i hi => absurd hi (Nat.not_lt_zero i)
  | succ n ih =>
    by_cases hpar : (mem.tbl (slotOf chan.size head)).cmd &&&
        lrpcDoneParity = parityOf chan.size head
    · have hrecv : lrpcRecv chan mem =
          ({ chan with recvHead := chan.recvHead + 1 },
            { mem with recvHeadWb := chan.recvHead + 1 },
            some ⟨(mem.tbl (slotOf chan.size head)).cmd &&& lrpcCmdMask,
              (mem.tbl (slotOf chan.size head)).payload⟩) := by
        unfold lrpcRecv
        rw [hhead]
        exact if_neg (not_not.mpr hpar)
      have hnext : chan.recvHead + 1 = BitVec.ofNat 32 (head + 1) := by
        rw [hhead, BitVec.ofNat_add]
        rfl
      rcases ih { chan with recvHead := chan.recvHead + 1 }
        { mem with recvHeadWb := chan.recvHead + 1 } (head + 1) hnext with
        ⟨q, hq⟩ | hrest
      · exact .inl ⟨_, .cons hrecv hq⟩
      · right
        intro i hi
        cases i with
        | zero => exact hpar
        | succ i =>
          have := hrest i (by omega)
          rwa [Nat.add_right_comm] at this
    · left
      refine ⟨[], .nil ?_⟩
      unfold lrpcRecv
      rw [hhead]
      exact if_pos hpar

/-- A channel always holds some commands: one lap later the parity of a slot
has flipped, so that the receiver stops there at the latest. -/
theorem holds_exists (chan : LrpcChanIn) (mem : LrpcMem)
    (hsize : isPowerOfTwo chan.size = true) : ∃ q, Holds chan mem q := by
  obtain ⟨k, hk⟩ := isPowerOfTwo_toNat hsize
  have hhead : chan.recvHead = BitVec.ofNat 32 chan.recvHead.toNat := by simp
  rcases holds_or_published (2 ^ k + 1) chan mem _ hhead with hq | hall
  · exact hq
  · have hfirst := hall 0 (by omega)
    have hlap := hall (2 ^ k) (by omega)
    rw [slotOf_lap hk] at hlap
    exact absurd (hlap.symm.trans hfirst) (parityOf_lap hk _)

end Queue

section Loop

def Gather.joins (g : Gather) : List (BitVec 64) :=
  (List.range g.joinCnt).map g.joinReqs

theorem Gather.command_joins (g : Gather) (m : LrpcMsg) :
    (g.command m).joins = g.joins ++ joinsOf [m] := by
  unfold Gather.command joinsOf
  by_cases hjoin : m.cmd = rxcmdJoin
  · have hkept : ∀ i ∈ List.range g.joinCnt,
        Function.update g.joinReqs g.joinCnt m.payload i = g.joinReqs i := by
      intro i hi
      apply Function.update_of_ne
      exact (List.mem_range.mp hi).ne
    simp [hjoin, Gather.joins, List.range_succ, List.map_congr_left hkept]
  · simp [hjoin]

@[simp]
theorem Gather.command_chan (g : Gather) (m : LrpcMsg) :
    (g.command m).chan = g.chan := by
  unfold Gather.command
  split <;> rfl

@[simp]
theorem Gather.command_mem (g : Gather) (m : LrpcMsg) :
    (g.command m).mem = g.mem := by
  unfold Gather.command
  split <;> rfl

theorem joinsOf_append (q r : List LrpcMsg) :
    joinsOf (q ++ r) = joinsOf q ++ joinsOf r := by
  simp [joinsOf]

/-- The loop takes as many commands as the budget allows and the queue has,
by induction on the budget. -/
theorem gatherLoop_spec (n : Nat) (g : Gather) {q : List LrpcMsg}
    (hq : Holds g.chan g.mem q) :
    Holds (gatherLoop n g).1.chan (gatherLoop n g).1.mem (q.drop n) ∧
      (gatherLoop n g).1.joins = g.joins ++ joinsOf (q.take n) ∧
      (gatherLoop n g).2 = (n : Int) - min n q.length - 1 := by
  induction n generalizing g q with
  | zero => exact ⟨hq, by simp [gatherLoop, joinsOf], by simp [gatherLoop]⟩
  | succ n ih =>
    cases hq with
    | nil hrecv =>
      have hstop : gatherLoop (n + 1) g = (g, (n : Int)) := by
        rw [gatherLoop, hrecv]
      rw [hstop]
      exact ⟨.nil hrecv, by simp [joinsOf], by simp⟩
    | @cons _ chan _ mem m q hrecv hrest =>
      have hstep : gatherLoop (n + 1) g =
          gatherLoop n ({ g with chan := chan, mem := mem }.command m) := by
        rw [gatherLoop, hrecv]
      have hafter := ih ({ g with chan := chan, mem := mem }.command m)
        (q := q) (by simpa using hrest)
      rw [hstep]
      refine ⟨hafter.1, ?_, ?_⟩
      · rw [hafter.2.1, Gather.command_joins, List.append_assoc,
          ← joinsOf_append]
        rfl
      · rw [hafter.2.2, List.length_cons]
        omega

end Loop

/-- What the loop leaves in `timer_budget`: one less than is left over if the
queue ran empty, and no limit at all if the budget ran out. -/
theorem timerBudget_toNat {n len : Nat} (hn : n ≤ softirqMaxBudget) :
    (BitVec.ofInt 32 ((n : Int) - min n len - 1)).toNat =
      if len < n then n - len - 1 else 2 ^ 32 - 1 := by
  have hbound : n ≤ 128 := hn
  rw [BitVec.toNat_ofInt]
  split
  · omega
  · omega

section Budget

variable {κ ε : Type} [DecidableEq κ] [DecidableEq ε]

theorem timerSoftirqLoop_fired_le (k : κ) (clock : Nat → Nat) (budget j : Nat)
    (s : TimerState κ ε) :
    (timerSoftirqLoop k clock budget j s).fired.length ≤
      s.fired.length + budget := by
  induction budget generalizing j s with
  | zero => exact Nat.le_refl _
  | succ budget ih =>
    rw [timerSoftirqLoop]
    split
    · rename_i hexp
      have hone : (timerSoftirq s k (clock j)).fired.length =
          s.fired.length + 1 := by
        rw [timerSoftirq_expired hexp, popSlot_fired]
        simp
      have hrest := ih (j + 1) (timerSoftirq s k (clock j))
      omega
    · omega

theorem softirqFn_fired_le (w : SoftirqWork κ) (s : TimerState κ ε)
    (clock : Nat → Nat) :
    (softirqFn w s clock).1.fired.length ≤
      s.fired.length + w.timerBudget.toNat := by
  unfold softirqFn
  split
  · apply timerSoftirqLoop_fired_le
  · exact Nat.le_add_right _ _

theorem softirqFn_fired_of_due {w : SoftirqWork κ} {s : TimerState κ ε}
    {clock : Nat → Nat} (hinv : TimerInv s)
    (hdue : ∀ x ∈ heapContents s w.k, ∀ i, x.deadlineUs ≤ clock i)
    (hbudget : s.timern w.k < w.timerBudget.toNat) :
    (softirqFn w s clock).1.fired.length =
      s.fired.length + s.timern w.k := by
  unfold softirqFn
  split
  · obtain ⟨run, hrun⟩ : ∃ run, Handles s
        (timerSoftirqCall s w.k w.timerBudget fun j => clock (j + 1)) w.k
        (fun j => clock (j + 1)) w.timerBudget.toNat 0 run :=
      timerSoftirqLoop_handles hinv
    have hlength := hrun.length_of_due (fun x hx i => hdue x hx (i + 1)) hbudget
    rw [hrun.fired, List.length_append, List.length_map, hlength]
  · rename_i hexp
    have hempty : s.timern w.k = 0 := by
      by_contra hne
      have hpos := Nat.pos_of_ne_zero hne
      exact hexp ⟨hpos, hdue _ (mem_heapContents.mpr ⟨0, hpos, rfl⟩) 0⟩
    rw [hempty]
    rfl

/-- What a budget is to mean for a queue that holds `q`: the longest prefix it
allows is taken off, the join commands of the prefix are recorded in order,
and commands and timers together stay within the budget, however late the
second pass runs. -/
structure KeepsBudget (ε : Type) [DecidableEq ε] (k : κ) (budget : BitVec 32)
    (joinReqs : Nat → BitVec 64) (chan : LrpcChanIn) (mem : LrpcMem)
    (q : List LrpcMsg) : Prop where
  takes : Holds (softirqGatherWork k budget joinReqs chan mem).2.1
    (softirqGatherWork k budget joinReqs chan mem).2.2
    (q.drop (min budget.toNat softirqMaxBudget))
  records : (softirqGatherWork k budget joinReqs chan mem).1.joins =
    joinsOf (q.take (min budget.toNat softirqMaxBudget))
  leaves : (q.take (min budget.toNat softirqMaxBudget)).length +
    (softirqGatherWork k budget joinReqs chan mem).1.timerBudget.toNat ≤
      budget.toNat
  handles : ∀ (s : TimerState κ ε) (clock : Nat → Nat),
    (q.take (min budget.toNat softirqMaxBudget)).length +
      (softirqFn (softirqGatherWork k budget joinReqs chan mem).1 s
        clock).1.fired.length ≤ budget.toNat + s.fired.length

variable {chan : LrpcChanIn} {mem : LrpcMem} {q : List LrpcMsg}

omit [DecidableEq κ] in
theorem softirqGatherWork_spec (hq : Holds chan mem q) (k : κ)
    (budget : BitVec 32) (joinReqs : Nat → BitVec 64) :
    Holds (softirqGatherWork k budget joinReqs chan mem).2.1
        (softirqGatherWork k budget joinReqs chan mem).2.2
        (q.drop (min budget.toNat softirqMaxBudget)) ∧
      (softirqGatherWork k budget joinReqs chan mem).1.joins =
        joinsOf (q.take (min budget.toNat softirqMaxBudget)) ∧
      (softirqGatherWork k budget joinReqs chan mem).1.timerBudget.toNat =
        if q.length < min budget.toNat softirqMaxBudget then
          min budget.toNat softirqMaxBudget - q.length - 1
        else 2 ^ 32 - 1 := by
  have hloop := gatherLoop_spec (min budget.toNat softirqMaxBudget)
    ⟨chan, mem, 0, joinReqs⟩ hq
  refine ⟨hloop.1, hloop.2.1, ?_⟩
  rw [← timerBudget_toNat (Nat.min_le_right _ _), ← hloop.2.2]
  rfl

/-- The budget is kept exactly where the queue runs empty before the budget
is used up: with the last command it allows, `budget_left` is left at -1,
which is no limit for the timers. -/
theorem softirq_budget_iff (hq : Holds chan mem q) (k : κ) (budget : BitVec 32)
    (joinReqs : Nat → BitVec 64) :
    KeepsBudget ε k budget joinReqs chan mem q ↔
      q.length < min budget.toNat softirqMaxBudget := by
  obtain ⟨htakes, hrecords, hleft⟩ :=
    softirqGatherWork_spec hq k budget joinReqs
  constructor
  · intro h
    by_contra hnot
    have hleaves := h.leaves
    rw [hleft, if_neg hnot, List.length_take] at hleaves
    have hlt := budget.isLt
    have hmax : softirqMaxBudget = 128 := rfl
    omega
  · intro hlt
    rw [if_pos hlt] at hleft
    have hlength : (q.take (min budget.toNat softirqMaxBudget)).length =
        q.length := by
      rw [List.length_take]
      omega
    constructor
    case takes => exact htakes
    case records => exact hrecords
    case leaves =>
      rw [hlength, hleft]
      omega
    case handles =>
      intro s clock
      have hfired := softirqFn_fired_le
        (softirqGatherWork k budget joinReqs chan mem).1 s clock
      rw [hlength]
      omega

end Budget

def rxqChan : LrpcChanIn :=
  { tbl := 0, recvHeadWb := 0, recvHead := 0, size := 4 }

def rxqMem : LrpcMem where
  tbl slot := if slot = 0 then ⟨lrpcDoneParity, 5⟩ else ⟨0, 0⟩
  recvHeadWb := 0

theorem rxqMem_holds : Holds rxqChan rxqMem [⟨rxcmdJoin, 5⟩] := by
  have hfirst : lrpcRecv rxqChan rxqMem =
      ({ rxqChan with recvHead := 1 }, { rxqMem with recvHeadWb := 1 },
        some ⟨rxcmdJoin, 5⟩) := by
    with_unfolding_all rfl
  exact .cons hfirst (.nil (by with_unfolding_all rfl))

/-- A budget of three is enough for the command. -/
theorem softirq_budget_iff_three :
    Holds rxqChan rxqMem [⟨rxcmdJoin, 5⟩] ∧
      KeepsBudget Nat false 3 (fun _ => 0) rxqChan rxqMem
        [⟨rxcmdJoin, 5⟩] :=
  ⟨rxqMem_holds, (softirq_budget_iff rxqMem_holds false 3 _).mpr (by decide)⟩

/-- The command uses up a budget of one, and yet both timers that have expired
are handled: three events. -/
theorem softirq_budget_of_one_handles_three :
    Holds rxqChan rxqMem [⟨rxcmdJoin, 5⟩] ∧ TimerInv timerTwoArmed ∧
      (softirqGatherWork false 1 (fun _ => 0) rxqChan rxqMem).1.joins =
        [5] ∧
      (softirqFn (softirqGatherWork false 1 (fun _ => 0) rxqChan
        rxqMem).1 timerTwoArmed fun _ => 9).1.fired.length = 2 ∧
      ¬ KeepsBudget Nat false 1 (fun _ => 0) rxqChan rxqMem
        [⟨rxcmdJoin, 5⟩] := by
  obtain ⟨_, hjoins, hleft⟩ :=
    softirqGatherWork_spec rxqMem_holds false 1 fun _ => 0
  have hdue : ∀ x ∈ heapContents timerTwoArmed false, x.deadlineUs ≤ 9 := by
    decide
  have hfired : (softirqFn (softirqGatherWork false 1 (fun _ => 0)
      rxqChan rxqMem).1 timerTwoArmed fun _ => 9).1.fired.length = 2 := by
    apply softirqFn_fired_of_due timerTwoArmed_inv fun x hx _ => hdue x hx
    rw [hleft]
    decide
  refine ⟨rxqMem_holds, timerTwoArmed_inv, hjoins, hfired, fun h => ?_⟩
  have htotal := h.handles timerTwoArmed fun _ => 9
  rw [hfired] at htotal
  exact absurd htotal (by decide)

end Libut.Runtime
