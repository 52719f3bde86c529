import Mathlib.Data.Nat.Bitwise
import Mathlib.Tactic
import Libut.Machine.System

/-!
The preemption counter (`inc/runtime/preempt.h`, `runtime/preempt.c`). One word
per kthread holds the nesting depth of `preempt_disable` in its low 31 bits
and, inverted, a pending preemption request in bit 31. The SIGUSR1 handler
clears that bit in the middle of whatever the kthread executes. On x86-64 the
counter changes in one instruction; on aarch64 it is loaded, changed in a
register and stored, and a request that arrives in between is overwritten by
the store.

The state is one kthread's. Where the handler (or `preempt`) yields, the
kthread goes on with other code; a thread preempted at some point of its own
code may continue here later, at depth zero (`resume`).
-/

namespace Libut.Runtime

open Machine

inductive Arch
  | x86
  | aarch64
  deriving DecidableEq, Repr

def preemptNotPending : BitVec 32 := 1#32 <<< 31

def preemptNeeded (cnt : BitVec 32) : Bool := cnt &&& preemptNotPending == 0#32

def preemptEnabled (cnt : BitVec 32) : Bool :=
  cnt &&& ~~~preemptNotPending == 0#32

def clearPreemptNeeded (cnt : BitVec 32) : BitVec 32 := cnt ||| preemptNotPending

def setPreemptNeeded (cnt : BitVec 32) : BitVec 32 :=
  cnt &&& ~~~preemptNotPending

/-- `preempt_disable`, and `preempt_enable` or `preempt_enable_nocheck`. -/
inductive PreemptOp
  | disable
  | enable (check : Bool)
  deriving DecidableEq, Repr

def PreemptOp.apply : PreemptOp → BitVec 32 → BitVec 32
  | .disable, cnt => cnt + 1#32
  | .enable _, cnt => cnt - 1#32

/-- Inside the aarch64 sequence: the thread pointer has been read, the counter
has been loaded, or the register has been changed. -/
inductive RmwStage
  | addressed
  | loaded (reg : BitVec 32)
  | computed (reg : BitVec 32)
  deriving DecidableEq, Repr

/-- `check` is between the store of `preempt_enable` and its comparison of the
counter with zero. -/
inductive PreemptPc
  | outside
  | rmw (op : PreemptOp) (stage : RmwStage)
  | check
  deriving DecidableEq, Repr

/-- The last three fields are history: the calls of `preempt_disable` that have
taken effect and are not undone, whether the handler has run since the last
`clear_preempt_needed`, and how often `preempt_enable` called `preempt`. -/
structure PreemptState where
  cnt : BitVec 32
  pc : PreemptPc
  depth : ℕ
  requested : Bool
  preempts : ℕ
  deriving DecidableEq, Repr

inductive PreemptAct
  | call (op : PreemptOp)
  | step
  | handleSigusr1
  | clear
  | resume (pc : PreemptPc)
  deriving DecidableEq, Repr

/-- Each `preempt_enable` undoes a `preempt_disable`. -/
def PreemptState.nested (s : PreemptState) : PreemptOp → Prop
  | .disable => True
  | .enable _ => 0 < s.depth

instance (s : PreemptState) (op : PreemptOp) : Decidable (s.nested op) :=
  match op with
  | .disable => .isTrue trivial
  | .enable _ => inferInstanceAs (Decidable (0 < s.depth))

def PreemptState.stored (s : PreemptState) (op : PreemptOp) (cnt : BitVec 32) :
    PreemptState :=
  match op with
  | .disable => { s with cnt := cnt, pc := .outside, depth := s.depth + 1 }
  | .enable true => { s with cnt := cnt, pc := .check, depth := s.depth - 1 }
  | .enable false => { s with cnt := cnt, pc := .outside, depth := s.depth - 1 }

def PreemptState.begin (s : PreemptState) (op : PreemptOp) :
    Arch → PreemptState
  | .x86 => s.stored op (op.apply s.cnt)
  | .aarch64 => { s with pc := .rmw op .addressed }

def preemptStep (s : PreemptState) : Option PreemptState :=
  match s.pc with
  | .outside => none
  | .rmw op .addressed => some { s with pc := .rmw op (.loaded s.cnt) }
  | .rmw op (.loaded reg) =>
    some { s with pc := .rmw op (.computed (op.apply reg)) }
  | .rmw op (.computed reg) => some (s.stored op reg)
  | .check =>
    if s.cnt = 0#32 then
      some { s with pc := .outside, preempts := s.preempts + 1 }
    else some { s with pc := .outside }

/-- `handle_sigusr1`. With preemption enabled it ends in
`thread_yield_kthread`, and the interrupted thread is no longer here. -/
def handleSigusr1 (s : PreemptState) : PreemptState :=
  let t := { s with cnt := setPreemptNeeded s.cnt, requested := true }
  if preemptEnabled t.cnt then { t with pc := .outside } else t

/-- `clear_preempt_needed` is one step: a handler that runs between its load
and its store has the effect of one that runs before it. -/
def preemptNext (arch : Arch) (s : PreemptState) :
    PreemptAct → Option PreemptState
  | .call op =>
    if s.pc = .outside ∧ s.nested op then some (s.begin op arch) else none
  | .step => preemptStep s
  | .handleSigusr1 => some (handleSigusr1 s)
  | .clear =>
    if s.pc = .outside then
      some { s with cnt := clearPreemptNeeded s.cnt, requested := false }
    else none
  | .resume pc =>
    if s.pc = .outside ∧ s.depth = 0 ∧
        (arch = .aarch64 ∨ pc = .outside ∨ pc = .check) then
      some { s with pc := pc }
    else none

def preemptSystem (arch : Arch) : System PreemptState PreemptAct where
  init s := s = ⟨preemptNotPending, .outside, 0, false, 0⟩
  next := preemptNext arch

def preemptWord (depth : ℕ) (requested : Bool) : BitVec 32 :=
  BitVec.ofNat 32 (depth + if requested then 0 else 2 ^ 31)

section Word

variable {depth : ℕ} (hdepth : depth < 2 ^ 31) (requested : Bool)
include hdepth

theorem preemptWord_toNat :
    (preemptWord depth requested).toNat =
      depth + if requested then 0 else 2 ^ 31 := by
  rw [preemptWord, BitVec.toNat_ofNat, Nat.mod_eq_of_lt]
  split <;> omega

theorem setPreemptNeeded_word :
    setPreemptNeeded (preemptWord depth requested) = preemptWord depth true := by
  apply BitVec.eq_of_toNat_eq
  have hmask : (~~~preemptNotPending).toNat = 2 ^ 31 - 1 := by decide
  rw [setPreemptNeeded, BitVec.toNat_and, hmask,
    Nat.and_two_pow_sub_one_eq_mod, preemptWord_toNat hdepth,
    preemptWord_toNat hdepth]
  cases requested <;> simp <;> omega

theorem clearPreemptNeeded_word :
    clearPreemptNeeded (preemptWord depth requested) =
      preemptWord depth false := by
  apply BitVec.eq_of_toNat_eq
  have hbit : preemptNotPending.toNat = 2 ^ 31 := by decide
  have hor : 2 ^ 31 ||| depth = 2 ^ 31 + depth := by
    simpa using (Nat.two_pow_add_eq_or_of_lt hdepth 1).symm
  rw [clearPreemptNeeded, BitVec.toNat_or, hbit, preemptWord_toNat hdepth,
    preemptWord_toNat hdepth]
  cases requested with
  | true => simpa [Nat.or_comm, Nat.add_comm] using hor
  | false =>
    have hself : depth + 2 ^ 31 = 2 ^ 31 ||| depth := by omega
    simp only [Bool.false_eq_true, if_false]
    rw [hself, Nat.or_comm, ← Nat.or_assoc, Nat.or_self]

theorem preemptEnabled_word :
    preemptEnabled (preemptWord depth requested) = decide (depth = 0) := by
  have hset := setPreemptNeeded_word hdepth requested
  rw [setPreemptNeeded] at hset
  rw [preemptEnabled, hset, Bool.eq_iff_iff, beq_iff_eq, decide_eq_true_eq,
    ← BitVec.toNat_inj, preemptWord_toNat hdepth]
  simp

theorem preemptNeeded_word :
    preemptNeeded (preemptWord depth requested) = requested := by
  have hbit : preemptNotPending.toNat = 2 ^ 31 := by decide
  have hlow : depth.testBit 31 = false := Nat.testBit_lt_two_pow hdepth
  rw [preemptNeeded, Bool.eq_iff_iff, beq_iff_eq, ← BitVec.toNat_inj,
    BitVec.toNat_and, hbit, preemptWord_toNat hdepth, Nat.and_two_pow]
  cases requested with
  | true => simp [hlow]
  | false =>
    have hhigh : (depth + 2 ^ 31).testBit 31 = true := by
      rw [Nat.add_comm, Nat.testBit_two_pow_add_eq, hlow]
      rfl
    simp only [Bool.false_eq_true, if_false, hhigh]
    decide

end Word

theorem disable_word (depth : ℕ) (requested : Bool) :
    PreemptOp.disable.apply (preemptWord depth requested) =
      preemptWord (depth + 1) requested := by
  rw [PreemptOp.apply, preemptWord, preemptWord, ← BitVec.ofNat_add]
  congr 1
  omega

theorem enable_word (depth : ℕ) (requested check : Bool) :
    (PreemptOp.enable check).apply (preemptWord (depth + 1) requested) =
      preemptWord depth requested := by
  rw [← disable_word, PreemptOp.apply, PreemptOp.apply, BitVec.add_sub_cancel]

/-- The handler does no harm at this point: the counter is not in a register, or
is there with a request already pending, or preemption is enabled, so that the
thread is preempted. -/
def handlerSafe (s : PreemptState) : Bool :=
  match s.pc with
  | .rmw _ (.loaded _) | .rmw _ (.computed _) =>
    preemptEnabled s.cnt || preemptNeeded s.cnt
  | _ => true

/-- The handler runs only where it is safe, and the depth fits into 31 bits. No
thread that was preempted inside a sequence continues here: its registers have
the address, and maybe the value, of the counter it began with. -/
def preemptOk (s : PreemptState) : PreemptAct → Prop
  | .call .disable => s.depth + 1 < 2 ^ 31
  | .handleSigusr1 => handlerSafe s = true
  | .resume pc => pc = .outside ∨ pc = .check
  | _ => True

instance (s : PreemptState) (a : PreemptAct) : Decidable (preemptOk s a) :=
  match a with
  | .call .disable => inferInstanceAs (Decidable (s.depth + 1 < 2 ^ 31))
  | .handleSigusr1 => inferInstanceAs (Decidable (handlerSafe s = true))
  | .resume pc => inferInstanceAs (Decidable (pc = .outside ∨ pc = .check))
  | .call (.enable _) => .isTrue trivial
  | .step => .isTrue trivial
  | .clear => .isTrue trivial

def PreemptState.room (s : PreemptState) : PreemptOp → Prop
  | .disable => s.depth + 1 < 2 ^ 31
  | .enable _ => 0 < s.depth

def RmwStage.Ok (op : PreemptOp) (cnt : BitVec 32) : RmwStage → Prop
  | .addressed => True
  | .loaded reg => reg = cnt
  | .computed reg => reg = op.apply cnt

structure PreemptInv (s : PreemptState) : Prop where
  depth_lt : s.depth < 2 ^ 31
  word : s.cnt = preemptWord s.depth s.requested
  rmw : ∀ op stage, s.pc = .rmw op stage → s.room op ∧ stage.Ok op s.cnt

variable {s t : PreemptState}

theorem PreemptInv.init {arch : Arch} (h : (preemptSystem arch).init s) :
    PreemptInv s := by
  cases h
  exact ⟨by decide, by decide, nofun⟩

theorem PreemptInv.stored (hinv : PreemptInv s) {op : PreemptOp}
    (hroom : s.room op) : PreemptInv (s.stored op (op.apply s.cnt)) := by
  have hdepth := hinv.depth_lt
  cases op with
  | disable =>
    refine ⟨hroom, ?_, nofun⟩
    rw [hinv.word]
    exact disable_word s.depth s.requested
  | enable check =>
    obtain ⟨d, hd⟩ := Nat.exists_eq_succ_of_ne_zero hroom.ne'
    have hword : (PreemptOp.enable check).apply s.cnt =
        preemptWord (s.depth - 1) s.requested := by
      rw [hinv.word, hd]
      exact enable_word d s.requested check
    cases check
    all_goals exact ⟨lt_of_le_of_lt (Nat.sub_le _ _) hdepth, hword, nofun⟩

theorem PreemptInv.handleSigusr1 (hinv : PreemptInv s)
    (hsafe : handlerSafe s = true) : PreemptInv (handleSigusr1 s) := by
  have hdepth := hinv.depth_lt
  have hset := setPreemptNeeded_word hdepth s.requested
  have hon := preemptEnabled_word hdepth s.requested
  have hneeded := preemptNeeded_word hdepth s.requested
  have hstill := preemptEnabled_word hdepth true
  rw [← hinv.word] at hset hon hneeded
  rw [← hset, ← hon] at hstill
  simp only [Runtime.handleSigusr1]
  split
  · exact ⟨hdepth, hset, nofun⟩
  rename_i hoff
  refine ⟨hdepth, hset, fun op stage hpc => ?_⟩
  obtain ⟨hroom, hstage⟩ := hinv.rmw op stage hpc
  refine ⟨by cases op <;> exact hroom, ?_⟩
  simp only [handlerSafe, show s.pc = .rmw op stage from hpc] at hsafe
  cases stage with
  | addressed => trivial
  | loaded reg | computed reg =>
    -- the request is pending already, so the handler changes nothing
    have hsame : setPreemptNeeded s.cnt = s.cnt := by
      rw [hstill] at hoff
      rw [Bool.or_eq_true] at hsafe
      rw [hset, hinv.word, ← hneeded, hsafe.resolve_left hoff]
    simp only [hsame]
    exact hstage

theorem PreemptInv.step (hinv : PreemptInv s) (hstep : preemptStep s = some t) :
    PreemptInv t := by
  simp only [preemptStep] at hstep
  split at hstep
  · cases hstep
  · rename_i op hpc
    cases hstep
    refine ⟨hinv.depth_lt, hinv.word, fun op' stage h => ?_⟩
    cases h
    exact ⟨by cases op <;> exact (hinv.rmw _ _ hpc).1, rfl⟩
  · rename_i op reg hpc
    cases hstep
    obtain ⟨hroom, hreg⟩ := hinv.rmw _ _ hpc
    refine ⟨hinv.depth_lt, hinv.word, fun op' stage h => ?_⟩
    cases h
    exact ⟨by cases op <;> exact hroom, congrArg op.apply hreg⟩
  · rename_i op reg hpc
    cases hstep
    obtain ⟨hroom, hreg⟩ := hinv.rmw _ _ hpc
    cases hreg
    exact hinv.stored hroom
  · split at hstep
    all_goals
      cases hstep
      exact ⟨hinv.depth_lt, hinv.word, nofun⟩

theorem PreemptInv.next {arch : Arch} {a : PreemptAct} (hinv : PreemptInv s)
    (hok : preemptOk s a) (hnext : preemptNext arch s a = some t) :
    PreemptInv t := by
  cases a with
  | call op =>
    obtain ⟨⟨-, hnested⟩, rfl⟩ := guarded hnext
    have hroom : s.room op := by
      cases op with
      | disable => exact hok
      | enable check => exact hnested
    cases arch with
    | x86 => exact hinv.stored hroom
    | aarch64 =>
      refine ⟨hinv.depth_lt, hinv.word, fun op' stage h => ?_⟩
      cases h
      exact ⟨by cases op <;> exact hroom, trivial⟩
  | step => exact hinv.step hnext
  | handleSigusr1 =>
    cases hnext
    exact hinv.handleSigusr1 hok
  | clear =>
    obtain ⟨hpc, rfl⟩ := guarded hnext
    refine ⟨hinv.depth_lt, ?_, fun op stage h => ?_⟩
    · rw [hinv.word]
      exact clearPreemptNeeded_word hinv.depth_lt s.requested
    · rw [show s.pc = _ from h] at hpc
      cases hpc
  | resume pc =>
    obtain ⟨-, rfl⟩ := guarded hnext
    refine ⟨hinv.depth_lt, hinv.word, fun op stage h => ?_⟩
    obtain rfl | rfl := hok <;> cases h

def PreemptState.OutsideRmw (s : PreemptState) : Prop :=
  ∀ op stage, s.pc ≠ .rmw op stage

theorem PreemptState.OutsideRmw.stored (s : PreemptState) (op : PreemptOp)
    (cnt : BitVec 32) : (s.stored op cnt).OutsideRmw := by
  intro op' stage
  cases op with
  | disable => exact nofun
  | enable check => cases check <;> exact nofun

end Libut.Runtime
