import Libut.Runtime.TrapFrame

/-!
Context switches on x86-64 (`runtime/switch.S`). `__jmp_thread_direct` and
`__jmp_runtime` save a frame; `__jmp_thread` and `__jmp_thread_direct` restore
one, and call `preempt` on the way if their decrement of the preemption count
reaches zero. A thread goes on with the context that was saved.
-/

namespace Libut.Runtime.X86

open Function Machine Memory

inductive Reg
  | rax | rbx | rcx | rdx | rsi | rdi | rbp | rsp
  | r8 | r9 | r10 | r11 | r12 | r13 | r14 | r15
  deriving DecidableEq, Repr

/-- `fs` is the base of the thread-local storage, `zf` the zero flag. -/
structure State where
  regs : Reg → BitVec 64
  mem : Memory
  fs : BitVec 64
  zf : Bool

def State.set (s : State) (r : Reg) (v : BitVec 64) : State :=
  { s with regs := update s.regs r v }

/-- The instructions used, with the operands in the order of the source. -/
inductive Instr
  /-- `movq off(%base), %dst` -/
  | load (off : Nat) (base dst : Reg)
  /-- `movq %src, off(%base)` -/
  | store (src : Reg) (off : Nat) (base : Reg)
  /-- `movq %src, %dst` -/
  | mov (src dst : Reg)
  /-- `leaq off(%base), %dst` -/
  | lea (off : Nat) (base dst : Reg)
  /-- `movl $0, (%base)` -/
  | clear (base : Reg)
  /-- `subl $1, %fs:off` -/
  | dec (off : BitVec 64)
  | pushq (src : Reg)
  | popq (dst : Reg)
  /-- `call preempt`, which returns to `ret` -/
  | callPreempt (ret : BitVec 64)

def push (s : State) (v : BitVec 64) : State :=
  let sp := s.regs .rsp - 8
  { s.set .rsp sp with mem := store s.mem sp 8 v }

/-- `preempt` is the state after its `ret`, from the state in which it is
entered. -/
def exec (preempt : State → State) : Instr → State → State
  | .load off base dst, s =>
    s.set dst (load s.mem (addr (s.regs base) off) 8)
  | .store src off base, s =>
    { s with mem := store s.mem (addr (s.regs base) off) 8 (s.regs src) }
  | .mov src dst, s => s.set dst (s.regs src)
  | .lea off base dst, s => s.set dst (addr (s.regs base) off)
  | .clear base, s => { s with mem := store s.mem (s.regs base) 4 0 }
  | .dec off, s =>
    let cnt := load s.mem (s.fs + off) 4 - 1
    { s with mem := store s.mem (s.fs + off) 4 cnt, zf := cnt == 0 }
  | .pushq src, s => push s (s.regs src)
  | .popq dst, s =>
    let v := load s.mem (s.regs .rsp) 8
    (s.set .rsp (s.regs .rsp + 8)).set dst v
  | .callPreempt ret, s => preempt (push s ret)

def isa (preempt : State → State) : Isa Instr Reg State where
  exec := exec preempt
  flag := State.zf
  reg := State.regs

namespace Tf

def RDI : Nat := 0
def RBX : Nat := 64
def RBP : Nat := 72
def R12 : Nat := 80
def R13 : Nat := 88
def R14 : Nat := 96
def R15 : Nat := 104
def RIP : Nat := 120
def RSP : Nat := 128

/-- `sizeof(struct thread_tf)`. -/
def size : Nat := 136

end Tf

def calleeSlots : List (Reg × Nat) :=
  [(.rbx, Tf.RBX), (.rbp, Tf.RBP), (.r12, Tf.R12), (.r13, Tf.R13),
    (.r14, Tf.R14), (.r15, Tf.R15)]

def layout : Layout Reg where
  callee := calleeSlots
  arg0 := Tf.RDI
  bptr := Tf.RBP
  iptr := Tf.RIP
  sptr := Tf.RSP
  lptr := none
  topWords := 1
  size := Tf.size
  clear := by decide
  inside := by decide
  small := by decide
  bptr_mem := by decide
  regs_nodup := by decide

def saveCallee (base : Reg) : List Instr :=
  calleeSlots.map fun p => .store p.1 p.2 base

def restoreCallee (base : Reg) : List Instr :=
  calleeSlots.map fun p => .load p.2 base p.1

def saveReturn : List Instr :=
  [.load 0 .rsp .r8, .store .r8 Tf.RIP .rdi, .lea 8 .rsp .r8,
    .store .r8 Tf.RSP .rdi]

section Programs

-- The place of `preempt_cnt` after `fs`, and the return address of the call.
variable (preemptCnt ret : BitVec 64)

/-- Restore the frame at `base` and enable preemption again. -/
def restoreFrame (base target : Reg) : List Instr :=
  restoreCallee base ++ [.load Tf.RSP base .rsp, .load Tf.RIP base target,
    .load Tf.RDI base .rdi, .dec preemptCnt]

/-- Jump into the frame; on the cold path, after a call of `preempt`. -/
def jumpInto (target : Reg) : Code Instr Reg :=
  .branch
    (block [.pushq target, .pushq .rdi, .callPreempt ret, .popq .rdi,
      .popq target] (.jump target))
    (.jump target)

def jmpThread : Code Instr Reg :=
  block (restoreFrame preemptCnt .rdi .rsi) (jumpInto ret .rsi)

/-- The part of `__jmp_thread_direct` that saves the old frame. -/
def directSave : List Instr := saveReturn ++ saveCallee .rdi

def jmpThreadDirect : Code Instr Reg :=
  block (directSave ++ ([.clear .rdx] ++ restoreFrame preemptCnt .rsi .rcx))
    (jumpInto ret .rcx)

/-- The part of `__jmp_runtime` that saves the frame. -/
def runtimeSave : List Instr := saveCallee .rdi ++ saveReturn

def jmpRuntime : Code Instr Reg :=
  block (runtimeSave ++ [.mov .rdx .rsp]) (.jump .rsi)

end Programs

/-- What the calling convention promises about `preempt`: the callee-saved
registers, the stack pointer of the caller, and the memory above it, of which
two words matter. -/
structure CallOk (preempt : State → State) : Prop where
  callee : ∀ s, ∀ p ∈ calleeSlots, (preempt s).regs p.1 = s.regs p.1
  sp : ∀ s, (preempt s).regs .rsp = addr (s.regs .rsp) 8
  above : ∀ s, Same s.mem (preempt s).mem (addr (s.regs .rsp) 8) 16

def called (s : State) : Context where
  callee := calleeSlots.map fun p => s.regs p.1
  sp := addr (s.regs .rsp) 8
  ip := load s.mem (s.regs .rsp) 8
  arg0 := load s.mem (addr (s.regs .rdi) Tf.RDI) 8

def resumed (final : State × BitVec 64) : Context where
  callee := calleeSlots.map fun p => final.1.regs p.1
  sp := final.1.regs .rsp
  ip := final.2
  arg0 := final.1.regs .rdi

variable {preempt : State → State} {preemptCnt ret : BitVec 64} {s : State}

@[simp]
theorem set_regs (s : State) (r : Reg) (v : BitVec 64) :
    (s.set r v).regs = update s.regs r v := rfl

@[simp]
theorem set_mem (s : State) (r : Reg) (v : BitVec 64) :
    (s.set r v).mem = s.mem := rfl

variable {base target : Reg} {tf : BitVec 64}

theorem runBlock_loads {slots : List (Reg × Nat)}
    (hbase : base ∉ slots.map Prod.fst) :
    (isa preempt).runBlock (slots.map fun p => .load p.2 base p.1) s =
      { s with regs := restoreRegs s.mem (s.regs base) slots s.regs } := by
  induction slots generalizing s with
  | nil => rfl
  | cons p rest ih =>
    rw [List.map_cons, List.mem_cons, not_or] at hbase
    rw [List.map_cons, runBlock_cons, ih hbase.2]
    have hkeep : ((isa preempt).exec (.load p.2 base p.1) s).regs base =
        s.regs base := update_of_ne hbase.1 ..
    rw [hkeep]
    rfl

theorem runBlock_stores {slots : List (Reg × Nat)} :
    (isa preempt).runBlock (slots.map fun p => .store p.1 p.2 base) s =
      { s with
        mem := writeSlots (s.regs base)
          (slots.map fun p => (p.2, s.regs p.1)) s.mem } := by
  induction slots generalizing s with
  | nil => rfl
  | cons p rest ih =>
    rw [List.map_cons, runBlock_cons, ih]
    rfl

theorem runBlock_saveReturn :
    (isa preempt).runBlock saveReturn s =
      { s with
        regs := update s.regs .r8 (addr (s.regs .rsp) 8)
        mem := writeSlots (s.regs .rdi)
          [(Tf.RIP, load s.mem (s.regs .rsp) 8),
            (Tf.RSP, addr (s.regs .rsp) 8)] s.mem } := by
  simp [saveReturn, runBlock_cons, isa, exec, State.set, writeSlots, addr_zero]

theorem runBlock_directSave :
    (isa preempt).runBlock directSave s =
      { s with
        regs := update s.regs .r8 (addr (s.regs .rsp) 8)
        mem := writeSlots (s.regs .rdi)
          ([(Tf.RIP, load s.mem (s.regs .rsp) 8),
            (Tf.RSP, addr (s.regs .rsp) 8)] ++
            calleeSlots.map fun p => (p.2, s.regs p.1)) s.mem } := by
  rw [directSave, runBlock_append, runBlock_saveReturn, saveCallee,
    runBlock_stores, writeSlots_append]
  rfl

/-- The frame that `__jmp_runtime` saves. The return address is read after the
registers are stored, so its word has to be outside the frame. -/
theorem runBlock_runtimeSave
    (hstack : Apart (s.regs .rsp) 8 (s.regs .rdi) Tf.size) :
    (isa preempt).runBlock runtimeSave s =
      { s with
        regs := update s.regs .r8 (addr (s.regs .rsp) 8)
        mem := writeSlots (s.regs .rdi)
          ((calleeSlots.map fun p => (p.2, s.regs p.1)) ++
            [(Tf.RIP, load s.mem (s.regs .rsp) 8),
              (Tf.RSP, addr (s.regs .rsp) 8)]) s.mem } := by
  have hchanges : Changes s.mem (writeSlots (s.regs .rdi)
      (calleeSlots.map fun p => (p.2, s.regs p.1)) s.mem) (s.regs .rdi)
      Tf.size := by
    apply writeSlots_changes
    intro w hw
    obtain ⟨p, hp, rfl⟩ := List.mem_map.mp hw
    exact layout.inside _ (layout.callee_mem hp)
  have hret := (hchanges.same hstack).load
  rw [runtimeSave, runBlock_append, saveCallee, runBlock_stores,
    runBlock_saveReturn, writeSlots_append]
  simp only [hret]

theorem frameAt_directSave :
    layout.frameAt ((isa preempt).runBlock directSave s).mem (s.regs .rdi) =
      called s := by
  rw [runBlock_directSave]
  exact layout.frameAt_save List.perm_append_comm

theorem frameAt_runtimeSave
    (hstack : Apart (s.regs .rsp) 8 (s.regs .rdi) Tf.size) :
    layout.frameAt ((isa preempt).runBlock runtimeSave s).mem
      (s.regs .rdi) = called s := by
  rw [runBlock_runtimeSave hstack]
  exact layout.frameAt_save (List.Perm.refl _)

theorem jmpRuntime_mem :
    ((jmpRuntime).eval (isa preempt) s).1.mem =
      ((isa preempt).runBlock runtimeSave s).mem := by
  rw [jmpRuntime, eval_block, runBlock_append]
  rfl

def Scratch (base target : Reg) : Prop :=
  base ∉ calleeSlots.map Prod.fst ∧ base ≠ .rsp ∧ base ≠ target ∧
    target ∉ .rsp :: .rdi :: calleeSlots.map Prod.fst

instance (base target : Reg) : Decidable (Scratch base target) :=
  inferInstanceAs (Decidable (_ ∧ _))

theorem pushes_load (b target rdi ret : BitVec 64) (m : Memory) :
    let m' := writeSlots b [(16, target), (8, rdi), (0, ret)] m
    load m' (addr b 8) 8 = rdi ∧ load m' (addr b 16) 8 = target := by
  have hclear : [(16, target), (8, rdi), (0, ret)].Pairwise
      fun w v => Clear w.1 v.1 := by
    simp [Clear]
  have hsmall : ∀ w ∈ [(16, target), (8, rdi), (0, ret)],
      w.1 + 8 ≤ 2 ^ 64 := by
    simp
  exact ⟨load_writeSlots hclear hsmall (by simp),
    load_writeSlots hclear hsmall (by simp)⟩

/-- The state in which `preempt` is entered on the cold path. -/
def atPreempt (ret : BitVec 64) (target : Reg) (s : State) : State :=
  let b := s.regs .rsp - 24
  { s with
    regs := update s.regs .rsp b
    mem := writeSlots b
      [(16, s.regs target), (8, s.regs .rdi), (0, ret)] s.mem }

theorem push_push_push :
    push (push (push s (s.regs target))
      ((push s (s.regs target)).regs .rdi)) ret = atPreempt ret target s := by
  have hfirst : s.regs .rsp - 8 = addr (s.regs .rsp - 24) 16 := by
    simp only [addr]; bv_omega
  have hsecond : addr (s.regs .rsp - 24) 16 - 8 =
      addr (s.regs .rsp - 24) 8 := by
    simp only [addr]; bv_omega
  have hthird : addr (s.regs .rsp - 24) 8 - 8 = s.regs .rsp - 24 := by
    simp only [addr]; bv_omega
  simp only [push, atPreempt, State.set, writeSlots, addr_zero, hfirst,
    hsecond, hthird, update_self, update_idem,
    update_of_ne (show Reg.rdi ≠ .rsp by decide)]

theorem preempt_kept (hcall : CallOk preempt) (ret : BitVec 64) (target : Reg)
    (s : State) :
    let q := preempt (atPreempt ret target s)
    q.regs .rsp = addr (s.regs .rsp - 24) 8 ∧
      load q.mem (addr (s.regs .rsp - 24) 8) 8 = s.regs .rdi ∧
      load q.mem (addr (s.regs .rsp - 24) 16) 8 = s.regs target := by
  have hentry : (atPreempt ret target s).regs .rsp = s.regs .rsp - 24 := by
    simp [atPreempt]
  have hsp := hcall.sp (atPreempt ret target s)
  have habove := hcall.above (atPreempt ret target s)
  rw [hentry] at hsp habove
  obtain ⟨hlow, hhigh⟩ := pushes_load (s.regs .rsp - 24) (s.regs target)
    (s.regs .rdi) ret s.mem
  have hsecond := habove.part (o := 8) (k := 8) (by decide)
  rw [addr_addr] at hsecond
  have hfirst := habove.part (o := 0) (k := 8) (by decide)
  rw [addr_zero] at hfirst
  exact ⟨hsp, hfirst.load.trans hlow, hsecond.load.trans hhigh⟩

/-- Whether or not `preempt` is called, the jump goes to the target with the
registers that were restored. -/
theorem resumed_jumpInto (hcall : CallOk preempt)
    (htarget : target ∉ Reg.rsp :: .rdi :: calleeSlots.map Prod.fst) :
    resumed ((jumpInto ret target).eval (isa preempt) s) =
      { callee := calleeSlots.map fun p => s.regs p.1
        sp := s.regs .rsp
        ip := s.regs target
        arg0 := s.regs .rdi } := by
  obtain ⟨hrsp, hrdi, hcallee⟩ : target ≠ .rsp ∧ target ≠ .rdi ∧
      target ∉ calleeSlots.map Prod.fst := by
    simpa only [List.mem_cons, not_or] using htarget
  rw [jumpInto, Code.eval]
  split
  · -- cold path
    obtain ⟨hsp, hlow, hhigh⟩ := preempt_kept hcall ret target s
    have hpop : addr (s.regs .rsp - 24) 8 + 8 =
        addr (s.regs .rsp - 24) 16 := by
      simp only [addr]; bv_omega
    have htop : addr (s.regs .rsp - 24) 16 + 8 = s.regs .rsp := by
      simp only [addr]; bv_omega
    have hregs : ∀ p ∈ calleeSlots,
        (preempt (atPreempt ret target s)).regs p.1 = s.regs p.1 := by
      intro p hp
      rw [hcall.callee _ p hp]
      have hne : p.1 ≠ .rsp := by revert p; decide
      exact update_of_ne hne ..
    rw [eval_block]
    simp only [runBlock_cons, runBlock_nil, isa, exec, push_push_push,
      Code.eval, resumed, set_regs, set_mem, hsp, hlow, hpop, hhigh, htop,
      update_self, update_of_ne hrsp.symm,
      update_of_ne hrdi.symm, Context.mk.injEq, and_true,
      update_of_ne (show Reg.rsp ≠ .rdi by decide),
      update_of_ne (show Reg.rdi ≠ .rsp by decide)]
    apply List.map_congr_left
    intro p hp
    have hne : p.1 ≠ .rsp ∧ p.1 ≠ .rdi := by revert p; decide
    have hother : p.1 ≠ target := fun heq =>
      hcallee (heq ▸ List.mem_map_of_mem hp)
    rw [update_of_ne hother, update_of_ne hne.1,
      update_of_ne hne.2, update_of_ne hne.1, hregs p hp]
  · rfl

theorem runBlock_restoreTail (preempt : State → State) (preemptCnt : BitVec 64)
    (s : State) (hrsp : base ≠ .rsp) (htarget : base ≠ target) :
    ((isa preempt).runBlock [.load Tf.RSP base .rsp, .load Tf.RIP base target,
      .load Tf.RDI base .rdi, .dec preemptCnt] s).regs =
      update (update (update s.regs .rsp
        (load s.mem (addr (s.regs base) Tf.RSP) 8)) target
        (load s.mem (addr (s.regs base) Tf.RIP) 8)) .rdi
        (load s.mem (addr (s.regs base) Tf.RDI) 8) := by
  have hdec : ∀ s, ((isa preempt).exec (.dec preemptCnt) s).regs = s.regs :=
    fun _ => rfl
  have hregs : ∀ off dst s, ((isa preempt).exec (.load off base dst) s).regs =
      update s.regs dst (load s.mem (addr (s.regs base) off) 8) :=
    fun _ _ _ => rfl
  have hmem : ∀ off dst s,
      ((isa preempt).exec (.load off base dst) s).mem = s.mem :=
    fun _ _ _ => rfl
  simp only [runBlock_cons, runBlock_nil, hdec, hregs, hmem,
    update_of_ne hrsp, update_of_ne htarget]

theorem runBlock_restoreFrame (preempt : State → State)
    (preemptCnt : BitVec 64) (s : State)
    (hscratch : Scratch base target) :
    let regs := restoreRegs s.mem (s.regs base) calleeSlots s.regs
    let r := (isa preempt).runBlock (restoreFrame preemptCnt base target) s
    r.regs = update (update (update regs .rsp
      (load s.mem (addr (s.regs base) Tf.RSP) 8)) target
      (load s.mem (addr (s.regs base) Tf.RIP) 8)) .rdi
      (load s.mem (addr (s.regs base) Tf.RDI) 8) := by
  obtain ⟨hbase, hrsp, htarget, -⟩ := hscratch
  intro regs r
  have hcallee : (isa preempt).runBlock (restoreCallee base) s =
      { s with regs := regs } := runBlock_loads hbase
  have hkeep : regs base = s.regs base := restoreRegs_other hbase
  change ((isa preempt).runBlock (restoreFrame preemptCnt base target)
    s).regs = _
  rw [restoreFrame, runBlock_append, hcallee,
    runBlock_restoreTail preempt preemptCnt _ hrsp htarget]
  simp only [hkeep]

theorem resumed_restoreFrame (hcall : CallOk preempt)
    (hscratch : Scratch base target) :
    resumed ((block (restoreFrame preemptCnt base target)
      (jumpInto ret target)).eval (isa preempt) s) =
      layout.frameAt s.mem (s.regs base) := by
  have hregs := runBlock_restoreFrame preempt preemptCnt s hscratch
  obtain ⟨hrsp, hrdi, hcallee⟩ : target ≠ .rsp ∧ target ≠ .rdi ∧
      target ∉ calleeSlots.map Prod.fst := by
    simpa only [List.mem_cons, not_or] using hscratch.2.2.2
  rw [eval_block, resumed_jumpInto hcall hscratch.2.2.2, hregs]
  simp only [Layout.frameAt, layout, Context.mk.injEq, update_self,
    update_of_ne hrdi, update_of_ne hrsp.symm,
    update_of_ne (show Reg.rsp ≠ .rdi by decide), and_true]
  apply List.map_congr_left
  intro p hp
  have hne : p.1 ≠ .rsp ∧ p.1 ≠ .rdi := by revert p; decide
  have hother : p.1 ≠ target := fun heq =>
    hcallee (heq ▸ List.mem_map_of_mem hp)
  rw [update_of_ne hne.2, update_of_ne hother, update_of_ne hne.1]
  exact restoreRegs_mem layout.regs_nodup hp

def restore (preemptCnt ret : BitVec 64) : Restorer → Code Instr Reg
  | .thread => jmpThread preemptCnt ret
  | .direct => jmpThreadDirect preemptCnt ret

/-- The routine is called to restore the frame at `tf`. The direct switch also
writes another frame, and the busy flag of another thread. -/
def Restores (tf : BitVec 64) : Restorer → State → Prop
  | .thread, r => r.regs .rdi = tf
  | .direct, r => r.regs .rsi = tf ∧
      Apart tf Tf.size (r.regs .rdi) Tf.size ∧
      Apart tf Tf.size (r.regs .rdx) 4

theorem frameAt_directHalf (hframe : Apart tf Tf.size (s.regs .rdi) Tf.size)
    (hflag : Apart tf Tf.size (s.regs .rdx) 4) :
    layout.frameAt ((isa preempt).runBlock [.clear .rdx]
      ((isa preempt).runBlock directSave s)).mem tf =
      layout.frameAt s.mem tf := by
  have hsave : Changes s.mem ((isa preempt).runBlock directSave s).mem
      (s.regs .rdi) Tf.size := by
    rw [runBlock_directSave]
    have hfills : layout.Fills
        ([(Tf.RIP, load s.mem (s.regs .rsp) 8),
          (Tf.RSP, addr (s.regs .rsp) 8)] ++
          calleeSlots.map fun p => (p.2, s.regs p.1)) :=
      layout.fills_of_saves List.perm_append_comm
    exact hfills.changes
  have hrdx : ((isa preempt).runBlock directSave s).regs .rdx =
      s.regs .rdx := by
    rw [runBlock_directSave]
    rfl
  apply layout.frameAt_same
  apply (hsave.same hframe).trans
  rw [runBlock_cons, runBlock_nil]
  apply store_same
  rw [hrdx]
  exact hflag

theorem resumed_restore (hcall : CallOk preempt) {how : Restorer}
    (hrestores : Restores tf how s) :
    resumed ((restore preemptCnt ret how).eval (isa preempt) s) =
      layout.frameAt s.mem tf := by
  cases how with
  | thread =>
    have htf : s.regs .rdi = tf := hrestores
    rw [restore, jmpThread, resumed_restoreFrame hcall (by decide), htf]
  | direct =>
    obtain ⟨htf, hframe, hflag⟩ := hrestores
    rw [restore, jmpThreadDirect, eval_block, runBlock_append,
      runBlock_append, ← eval_block, resumed_restoreFrame hcall (by decide)]
    have hnew : ((isa preempt).runBlock [.clear .rdx]
        ((isa preempt).runBlock directSave s)).regs .rsi = tf := by
      rw [runBlock_directSave]
      exact htf
    rw [hnew, frameAt_directHalf hframe hflag]

/-- The frame at `tf` has just been given the context: a thread has called one
of the saving routines, or `thread_create` has made a thread. A frame is
outside the stacks. -/
inductive Built (preempt : State → State) :
    (tf : BitVec 64) → Context → Memory → Prop
  | direct (s : State) :
      Built preempt (s.regs .rdi) (called s)
        ((isa preempt).runBlock directSave s).mem
  | runtime (s : State)
      (hstack : Apart (s.regs .rsp) 8 (s.regs .rdi) Tf.size) :
      Built preempt (s.regs .rdi) (called s)
        (jmpRuntime.eval (isa preempt) s).1.mem
  | create (m : Memory) (th stack threadExit fn arg : BitVec 64)
      (hstack : Apart th Tf.size (addr stack (8 * (stackPtrSize - 1))) 8) :
      Built preempt th (layout.newContext m th stack fn arg)
        (layout.threadCreate m th stack threadExit fn arg)

theorem Built.frameAt {c : Context} {m : Memory}
    (hbuilt : Built preempt tf c m) : layout.frameAt m tf = c := by
  cases hbuilt with
  | direct s => exact frameAt_directSave
  | runtime s hstack =>
    rw [jmpRuntime_mem]
    exact frameAt_runtimeSave hstack
  | create m th stack threadExit fn arg hstack =>
    exact layout.frameAt_threadCreate hstack

theorem resumed_built (hcall : CallOk preempt) {c : Context} {m : Memory}
    (hbuilt : Built preempt tf c m) (hkept : Same m s.mem tf Tf.size)
    {how : Restorer} (hrestores : Restores tf how s) :
    resumed ((restore preemptCnt ret how).eval (isa preempt) s) = c := by
  rw [resumed_restore hcall hrestores, ← hbuilt.frameAt]
  exact layout.frameAt_same hkept

end Libut.Runtime.X86
