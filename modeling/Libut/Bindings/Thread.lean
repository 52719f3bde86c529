import Libut.Machine.System

/-!
Joining and detaching threads (`bindings/cc/thread.cc`). The thread and its
owner meet at the `join_data` of the thread: whoever comes first leaves word and
waits, unless the owner detaches, and the other one wakes it. The `join_data` is
on the stack of the thread and goes with it, so that nobody may touch it after
the thread has returned.

The states that the two can be in are those of a small machine, `Phase`, which
says who came first and how far they are.
-/

namespace Libut.Bindings

open Machine

inductive Side
  | thread
  | owner
  deriving DecidableEq, Repr

def Side.other : Side → Side
  | .thread => .owner
  | .owner => .thread

structure Sides (α : Type) where
  thread : α
  owner : α
  deriving DecidableEq, Repr

section Sides

variable {α : Type}

def Sides.get (x : Sides α) : Side → α
  | .thread => x.thread
  | .owner => x.owner

def Sides.set (x : Sides α) (i : Side) (a : α) : Sides α :=
  match i with
  | .thread => { x with thread := a }
  | .owner => { x with owner := a }

/-- `a` for the side `i` and `b` for the other one. -/
def Sides.of (i : Side) (a b : α) : Sides α :=
  match i with
  | .thread => ⟨a, b⟩
  | .owner => ⟨b, a⟩

end Sides

inductive JoinPc
  /-- The thread runs `func_`, the owner has not called. -/
  | away
  /-- It has `lock_` and reads `done_` next. -/
  | locked
  /-- It has set `done_` and `waiter_` and has `lock_`. -/
  | first
  /-- In `thread_park_and_unlock_np`. -/
  | parked
  /-- It found `done_` set and has released `lock_`. -/
  | second
  | returned
  deriving DecidableEq, Repr

structure JoinData where
  lock : Option Side
  done : Bool
  waiter : Option Side
  asleep : Sides Bool
  pc : Sides JoinPc
  deriving DecidableEq, Repr

inductive JoinFault
  /-- The `join_data` is gone. -/
  | freed
  /-- `assert(join_data_->waiter_ != nullptr)` -/
  | noWaiter
  /-- `thread_ready` of a thread that does not sleep. -/
  | notAsleep
  deriving DecidableEq, Repr

def JoinData.setPc (s : JoinData) (i : Side) (pc : JoinPc) : JoinData :=
  { s with pc := s.pc.set i pc }

/-- `thread_ready(d->waiter_)`. The thread itself tests for null first. -/
def readyWaiter (s : JoinData) (i : Side) : Except JoinFault JoinData :=
  match s.waiter with
  | none => if i = .thread then .ok s else .error .noWaiter
  | some w =>
    if s.asleep.get w then .ok { s with asleep := s.asleep.set w false }
    else .error .notAsleep

/-- The next step of `ThreadTrampolineWithJoin` after `func_`, of `Join`, which
`parks`, or of `Detach`, which does not; `none` while it waits. -/
def meetStep (s : JoinData) (i : Side) (parks : Bool) :
    Option (Except JoinFault JoinData) :=
  match s.pc.get i with
  | .away =>
    if s.lock = none then some (.ok ({ s with lock := some i }.setPc i .locked))
    else none
  | .locked =>
    if s.done then some (.ok ({ s with lock := none }.setPc i .second))
    else
      let waiter := if parks then some i else none
      some (.ok ({ s with done := true, waiter := waiter }.setPc i .first))
  | .first =>
    if parks then
      some (.ok ({ s with
        lock := none, asleep := s.asleep.set i true }.setPc i .parked))
    else some (.ok ({ s with lock := none }.setPc i .returned))
  | .second => some ((readyWaiter s i).map (·.setPc i .returned))
  | .parked =>
    if s.asleep.get i then none else some (.ok (s.setPc i .returned))
  | .returned => none

/-- The step touches the `join_data`. -/
def JoinPc.touches : JoinPc → Bool
  | .parked | .returned => false
  | _ => true

/-- `join` says which function the owner calls. -/
def Side.parks (join : Bool) : Side → Bool
  | .thread => true
  | .owner => join

/-- A step of one side, with the memory checked. -/
def joinDataStep (join : Bool) (s : JoinData) (i : Side) :
    Option (Except JoinFault JoinData) :=
  if (s.pc.get i).touches ∧ s.pc.thread = .returned then some (.error .freed)
  else meetStep s i (i.parks join)

/-- The constructor of `join_data`. -/
def newJoinData : JoinData where
  lock := none
  done := false
  waiter := none
  asleep := ⟨false, false⟩
  pc := ⟨.away, .away⟩

def joinSystem (join : Bool) : System JoinData Side where
  init s := s = newJoinData
  next s i := (joinDataStep join s i).bind Except.toOption

/-- From `set` on, the side `i` came first. -/
inductive Phase
  | start
  | locked (i : Side)
  | set (i : Side)
  | left (i : Side)
  | found (i : Side)
  | waking (i : Side)
  | woken (i : Side)
  | ended (i : Side)

def Phase.next (join : Bool) : Phase → Side → Option Phase
  | .start, j => some (.locked j)
  | .locked i, j => if j = i then some (.set i) else none
  | .set i, j => if j = i then some (.left i) else none
  | .left i, j => if j = i then none else some (.found i)
  | .found i, j => if j = i then none else some (.waking i)
  | .waking i, j =>
    if j = i then none else some (if i.parks join then .woken i else .ended i)
  | .woken i, j => if j = i then some (.ended i) else none
  | .ended _, _ => none

def phaseSystem (join : Bool) : System Phase Side where
  init ph := ph = .start
  next := Phase.next join

def Phase.rank : Phase → Nat
  | .start => 0
  | .locked _ => 1
  | .set _ => 2
  | .left _ => 3
  | .found _ => 4
  | .waking _ => 5
  | .woken _ => 6
  | .ended _ => 7

/-- The state of a phase. -/
def Phase.state (join : Bool) : Phase → JoinData
  | .start => newJoinData
  | .locked i => ⟨some i, false, none, .of i false false, .of i .locked .away⟩
  | .set i =>
    ⟨some i, true, waiter i, .of i false false, .of i .first .away⟩
  | .left i =>
    ⟨none, true, waiter i, .of i (i.parks join) false, .of i (pc i) .away⟩
  | .found i =>
    ⟨some i.other, true, waiter i, .of i (i.parks join) false,
      .of i (pc i) .locked⟩
  | .waking i =>
    ⟨none, true, waiter i, .of i (i.parks join) false, .of i (pc i) .second⟩
  | .woken i =>
    ⟨none, true, waiter i, .of i false false, .of i .parked .returned⟩
  | .ended i =>
    ⟨none, true, waiter i, .of i false false, .of i .returned .returned⟩
where
  waiter (i : Side) : Option Side := if i.parks join then some i else none
  pc (i : Side) : JoinPc := if i.parks join then .parked else .returned

section Phases

variable {join : Bool} {s : JoinData} {i : Side}

/-- The code does what the small machine does, and fails nowhere. -/
theorem joinDataStep_state (ph : Phase) :
    joinDataStep join (ph.state join) i =
      (ph.next join i).map fun ph' => .ok (ph'.state join) := by
  cases ph with
  | start => cases i <;> rfl
  | locked j | set j | left j | found j | waking j | woken j | ended j =>
    cases join <;> cases i <;> cases j <;> rfl

theorem joinSystem_next (ph : Phase) :
    (joinSystem join).next (ph.state join) i =
      (ph.next join i).map (Phase.state join) := by
  change (joinDataStep join (ph.state join) i).bind Except.toOption = _
  rw [joinDataStep_state]
  cases ph.next join i <;> rfl

theorem reach_state {ok : JoinData → Side → Prop}
    (hs : (joinSystem join).Reach ok s) : ∃ ph, s = Phase.state join ph := by
  apply hs.invariant
  · rintro s rfl
    exact ⟨.start, rfl⟩
  · rintro s i t ⟨ph, rfl⟩ _ hnext
    rw [joinSystem_next] at hnext
    obtain ⟨ph', -, rfl⟩ := Option.map_eq_some_iff.mp hnext
    exact ⟨ph', rfl⟩

theorem exec_state (ph : Phase) (labels : List Side) :
    (joinSystem join).exec (ph.state join) labels =
      ((phaseSystem join).exec ph labels).map (Phase.state join) := by
  induction labels generalizing ph with
  | nil => rfl
  | cons i rest ih =>
    rw [System.exec, System.exec, joinSystem_next]
    change _ = Option.map _ ((ph.next join i).bind _)
    cases ph.next join i with
    | none => rfl
    | some ph' => exact ih ph'

theorem phaseSystem_rank {ph ph' : Phase}
    (hnext : (phaseSystem join).next ph i = some ph') : ph.rank < ph'.rank := by
  change ph.next join i = some ph' at hnext
  cases ph with
  | start =>
    cases hnext
    exact Nat.zero_lt_one
  | ended j => cases hnext
  | locked j | set j | woken j =>
    obtain ⟨-, rfl⟩ := guarded hnext
    exact Nat.lt_add_one _
  | left j | found j =>
    obtain ⟨-, heq⟩ := Option.ite_none_left_eq_some.mp hnext
    cases heq
    exact Nat.lt_add_one _
  | waking j =>
    obtain ⟨-, heq⟩ := Option.ite_none_left_eq_some.mp hnext
    cases heq
    split <;> simp [Phase.rank]

theorem Phase.rank_le (ph : Phase) : ph.rank ≤ 7 := by
  cases ph <;> simp [Phase.rank]

/-- Before it is over one of the two has a step. -/
theorem Phase.quiet {ph : Phase} (hquiet : ∀ i, ph.next join i = none) :
    ∃ i, ph = .ended i := by
  cases ph with
  | start => cases hquiet .thread
  | locked j | set j | woken j => simpa [Phase.next] using hquiet j
  | left j | found j | waking j =>
    cases j with
    | thread => cases hquiet .owner
    | owner => cases hquiet .thread
  | ended j => exact ⟨j, rfl⟩

theorem Phase.joined (ph : Phase)
    (howner : (ph.state true).pc.owner = .returned) :
    (ph.state true).pc.thread ≠ .away := by
  intro haway
  cases ph with
  | start => cases howner
  | locked j | set j | left j | found j | waking j | woken j | ended j =>
    cases j <;> first | cases howner; done | cases haway

theorem Phase.detached (ph : Phase) :
    (ph.state false).asleep.owner = false := by
  cases ph with
  | start => rfl
  | locked j | set j | left j | found j | waking j | woken j | ended j =>
    cases j <;> rfl

end Phases

/-- However the end of a thread and the call of its owner interleave, nobody
touches the `join_data` after it is gone or readies a thread that does not
sleep. `Join` does not return before `func_` has, `Detach` never sleeps. Every
run ends, and where it ends both have returned. -/
theorem thread_join_sound (join : Bool) (s : JoinData)
    (hs : (joinSystem join).Reach anyStep s) :
    (∀ i r, joinDataStep join s i = some r → ∃ t, r = .ok t) ∧
    (join = true → s.pc.owner = .returned → s.pc.thread ≠ .away) ∧
    (join = false → s.asleep.owner = false) ∧
    ((∀ i, joinDataStep join s i = none) → ∀ i, s.pc.get i = .returned) ∧
    ∀ labels t, (joinSystem join).exec s labels = some t →
      labels.length ≤ 7 := by
  obtain ⟨ph, rfl⟩ := reach_state hs
  refine ⟨fun i r hstep => ?_, fun hjoin => ?_, fun hdetach => ?_,
    fun hquiet i => ?_, fun labels t hrun => ?_⟩
  · rw [joinDataStep_state] at hstep
    obtain ⟨ph', -, rfl⟩ := Option.map_eq_some_iff.mp hstep
    exact ⟨_, rfl⟩
  · subst hjoin
    exact ph.joined
  · subst hdetach
    exact ph.detached
  · obtain ⟨j, rfl⟩ := Phase.quiet fun i => by
      have hnone := hquiet i
      rwa [joinDataStep_state, Option.map_eq_none_iff] at hnone
    cases i <;> cases j <;> rfl
  · rw [exec_state] at hrun
    obtain ⟨ph', hphases, -⟩ := Option.map_eq_some_iff.mp hrun
    have hle := System.exec_rank (fun _ _ _ => phaseSystem_rank) hphases
    have hlast := ph'.rank_le
    omega

/-- The owner waits in `Join` when the thread ends and wakes it. -/
def joinRun : List Side :=
  [.owner, .owner, .owner, .thread, .thread, .thread, .owner]

theorem thread_join_sound_waits :
    ∃ s, (joinSystem true).exec newJoinData joinRun = some s ∧
      s.pc.owner = .returned ∧ s.pc.thread ≠ .away := by
  obtain ⟨s, hrun⟩ : ∃ s,
      (joinSystem true).exec newJoinData joinRun = some s := ⟨_, rfl⟩
  have hs : (joinSystem true).Reach anyStep s :=
    System.Reach.exec (.init rfl) joinRun hrun
  have howner : s.pc.owner = .returned := by
    cases hrun
    rfl
  exact ⟨s, hrun, howner, (thread_join_sound true s hs).2.1 rfl howner⟩

end Libut.Bindings
