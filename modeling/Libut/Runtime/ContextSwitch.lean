import Libut.Runtime.SwitchX86
import Libut.Runtime.SwitchArm

/-!
Context switches on both architectures: whether a thread goes on with the
context it had when its frame was saved, or with the one that `thread_create`
gave it.
-/

namespace Libut.Runtime

open Machine Memory

/-- On x86-64 a thread always goes on with its context. On aarch64 it does
unless `__jmp_thread_direct` restores it and takes the cold path, which is the
case exactly if `preempt_cnt` is 1 when the routine is called. -/
theorem context_switch_round_trip_iff (tf : BitVec 64) (c : Context)
    (m : Memory) (how : Restorer) :
    (∀ (preempt : X86.State → X86.State) (cnt ret : BitVec 64)
      (r : X86.State), X86.CallOk preempt → X86.Built preempt tf c m →
      Same m r.mem tf X86.Tf.size → X86.Restores tf how r →
      X86.resumed ((X86.restore cnt ret how).eval (X86.isa preempt) r) = c) ∧
    (∀ (B : Arm.Build) (preempt : Arm.State → Arm.State) (r : Arm.State),
      Arm.CallOk preempt → Arm.Built B preempt tf c m →
      Same m r.mem tf (Arm.Tf.size B) → Arm.Restores B tf how r →
      (Arm.resumed ((Arm.restore B how).eval (Arm.isa B preempt) r) = c ↔
        ¬ (how = .direct ∧ Arm.preemptCnt B r = 1))) := by
  constructor
  · intro preempt cnt ret r hcall hbuilt hkept hrestores
    exact X86.resumed_built hcall hbuilt hkept hrestores
  · intro B preempt r hcall hbuilt hkept hrestores
    exact Arm.resumed_built_iff hcall hbuilt hkept hrestores

section Switches

def plainBuild : Arm.Build where
  neon := false
  localExec := true
  tprel := 0
  gotPage := 0
  gottprel := 0x3000
  ret := 0

/-- A thread that saves its frame at `0x1000`. -/
def savingThread : Arm.State where
  regs
    | .sp => 0x9000
    | .x 0 => 0x1000
    | _ => 0
  v _ := 0
  mem _ := 0
  tpidr := 0x4000
  z := false

/-- A call of `__jmp_thread_direct` that restores this frame, saves another
one at `0x2000` and clears the flag at `0x5000`, with the given count. -/
def restoringThread (cnt : BitVec 32) : Arm.State where
  regs
    | .sp => 0x8000
    | .x 0 => 0x2000
    | .x 1 => 0x1000
    | .x 2 => 0x5000
    | _ => 0
  v _ := 0
  mem := store ((Arm.isa plainBuild id).runBlock (Arm.directSave plainBuild)
    savingThread).mem 0x4000 4 cnt
  tpidr := 0x4000
  z := false

theorem callOk_id : Arm.CallOk id where
  callee _ _ _ := rfl
  sp _ := rfl
  above _ _ _ := rfl

theorem apart_at (o p : Nat) {n k : Nat} (h : o + n ≤ p ∨ p + k ≤ o)
    (ho : o + n ≤ 2 ^ 64) (hp : p + k ≤ 2 ^ 64) :
    Apart (BitVec.ofNat 64 o) n (BitVec.ofNat 64 p) k := by
  have hapart := apart_slots 0 h ho hp
  simpa [addr] using hapart

theorem restoringThread_restores (cnt : BitVec 32) :
    Arm.Restores plainBuild 0x1000 .direct (restoringThread cnt) := by
  have hcnt : Arm.cntAddr plainBuild (restoringThread cnt) = 0x4000 := by
    rfl
  have hgot : addr plainBuild.gotPage plainBuild.gottprel = 0x3000 := by
    rfl
  refine ⟨rfl, ?_, ?_, ⟨?_, ?_⟩, ⟨?_, ?_⟩⟩
  · exact apart_at 0x1000 0x2000 (by decide) (by decide) (by decide)
  · exact apart_at 0x1000 0x5000 (by decide) (by decide) (by decide)
  · rw [hcnt]
    exact apart_at 0x4000 0x2000 (by decide) (by decide) (by decide)
  · rw [hgot]
    exact apart_at 0x3000 0x2000 (by decide) (by decide) (by decide)
  · rw [hcnt]
    exact apart_at 0x4000 0x5000 (by decide) (by decide) (by decide)
  · rw [hgot]
    exact apart_at 0x3000 0x5000 (by decide) (by decide) (by decide)

theorem savingThread_built :
    Arm.Built plainBuild id 0x1000 (Arm.called savingThread)
      ((Arm.isa plainBuild id).runBlock (Arm.directSave plainBuild)
        savingThread).mem := Arm.Built.direct savingThread

theorem restoringThread_kept (cnt : BitVec 32) :
    Same ((Arm.isa plainBuild id).runBlock (Arm.directSave plainBuild)
      savingThread).mem (restoringThread cnt).mem 0x1000
      (Arm.Tf.size plainBuild) := by
  apply store_same
  exact apart_at 0x1000 0x4000 (by decide) (by decide) (by decide)

theorem restoringThread_cnt (cnt : BitVec 32) :
    Arm.preemptCnt plainBuild (restoringThread cnt) = cnt := by
  have hcnt : Arm.cntAddr plainBuild (restoringThread cnt) = 0x4000 := by
    rfl
  have hload (m : Memory) : load (store m 0x4000 4 cnt) 0x4000 4 = cnt :=
    load_store (n := 4) (by decide) cnt
  rw [Arm.preemptCnt, hcnt]
  exact hload _

/-- A preemption that lands in the switch: the thread goes on with a stack
pointer that is one word too low. -/
theorem direct_switch_shifts_stack :
    (Arm.called savingThread).sp = 0x9000 ∧
      (Arm.resumed ((Arm.restore plainBuild .direct).eval
        (Arm.isa plainBuild id) (restoringThread 1))).sp = 0x8ff8 := by
  constructor
  · rfl
  · rw [Arm.resumed_built callOk_id savingThread_built
      (restoringThread_kept 1) (restoringThread_restores 1)]
    simp only [Arm.finalSp, restoringThread_cnt, and_self, if_true]
    rfl

/-- A `preempt` that only returns. -/
def returns (s : X86.State) : X86.State :=
  s.set .rsp (addr (s.regs .rsp) 8)

theorem callOk_returns : X86.CallOk returns where
  callee s p hp := by
    have hne : p.1 ≠ .rsp := by revert p; decide
    exact Function.update_of_ne hne ..
  sp s := by simp [returns]
  above _ _ _ := rfl

/-- The start of a thread that was created at `0x1000`. -/
def startingThread : X86.State where
  regs
    | .rdi => 0x1000
    | _ => 0
  mem := X86.layout.threadCreate (fun _ => 0) 0x1000 0x100000 0x10 0x20 7
  fs := 0
  zf := false

/-- A new thread on x86-64 starts with its argument, and a switch on aarch64
with a count of 2 goes on with what was saved. -/
theorem context_switch_round_trip_plain :
    X86.resumed ((X86.restore 0x4000 0 .thread).eval (X86.isa returns)
        startingThread) =
      X86.layout.newContext (fun _ => 0) 0x1000 0x100000 0x20 7 ∧
    Arm.resumed ((Arm.restore plainBuild .direct).eval
        (Arm.isa plainBuild id) (restoringThread 2)) =
      Arm.called savingThread := by
  constructor
  · exact (context_switch_round_trip_iff 0x1000 _ _ .thread).1 returns 0x4000
      0 startingThread callOk_returns
      (X86.Built.create (fun _ => 0) 0x1000 0x100000 0x10 0x20 7
        (apart_at 0x1000 0x11fff8 (by decide) (by decide) (by decide)))
      (fun _ _ => rfl) rfl
  · apply ((context_switch_round_trip_iff 0x1000 _ _ .direct).2 plainBuild id
      (restoringThread 2) callOk_id savingThread_built
      (restoringThread_kept 2) (restoringThread_restores 2)).mpr
    rw [restoringThread_cnt]
    decide

end Switches

end Libut.Runtime
