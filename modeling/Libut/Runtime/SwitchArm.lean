import Libut.Runtime.TrapFrame

/-!
Context switches on aarch64 (`runtime/switch.S`). The routines do what those
for x86-64 do, with pairs of registers, with a link register in place of the
return address on the stack, and with the vector registers where the machine
has them. The cold path of `__jmp_thread_direct` pushes two words and pops only
one of them off the stack, so a thread that is restored there goes on with a
stack pointer that is too low.
-/

namespace Libut.Runtime.Arm

open Function Machine Memory

inductive Reg
  | x (n : Fin 31)
  | sp
  deriving DecidableEq, Repr

/-- `z` is the zero flag, `tpidr` the base of the thread-local storage. -/
structure State where
  regs : Reg → BitVec 64
  v : Fin 32 → BitVec 128
  mem : Memory
  tpidr : BitVec 64
  z : Bool

def State.set (s : State) (r : Reg) (w : BitVec 64) : State :=
  { s with regs := update s.regs r w }

structure Build where
  /-- `__ARM_NEON` -/
  neon : Bool
  /-- `TLS_LOCAL_EXEC` -/
  localExec : Bool
  /-- `:tprel_lo12: preempt_cnt` -/
  tprel : Nat
  /-- The page of `_GLOBAL_OFFSET_TABLE_`. -/
  gotPage : BitVec 64
  /-- `:gottprel_lo12: preempt_cnt` -/
  gottprel : Nat
  ret : BitVec 64

/-- The instructions used, with the operands in the order of the source. -/
inductive Instr
  /-- `ldp a, b, [base, off]` -/
  | ldp (a b base : Reg) (off : Nat)
  /-- `stp a, b, [base, off]` -/
  | stp (a b base : Reg) (off : Nat)
  /-- `ldr dst, [base, off]` -/
  | ldr (dst base : Reg) (off : Nat)
  /-- `str src, [base, off]` -/
  | str (src base : Reg) (off : Nat)
  | mov (dst src : Reg)
  /-- `add dst, src, n` -/
  | addImm (dst src : Reg) (n : Nat)
  | add (dst a b : Reg)
  /-- `ld1` of four vectors from `n` on, `[base], #64` -/
  | ld1 (n : Fin 32) (base : Reg)
  /-- `st1` of four vectors from `n` on, `[base], #64` -/
  | st1 (n : Fin 32) (base : Reg)
  /-- `dmb ishst` -/
  | dmb
  /-- `str wzr, [base]` -/
  | strZero (base : Reg)
  /-- `mrs dst, TPIDR_EL0` -/
  | mrs (dst : Reg)
  /-- `adrp dst, _GLOBAL_OFFSET_TABLE_` -/
  | adrpGot (dst : Reg)
  /-- `ldr` of a word into the lower half of `dst` -/
  | ldrw (dst base : Reg) (off : Nat)
  /-- `str` of the lower half of `src` -/
  | strw (src base : Reg) (off : Nat)
  /-- `subs r, r, #1` on the lower half -/
  | decw (r : Reg)
  /-- `stp a, b, [sp, #-16]!` -/
  | stpPre (a b : Reg)
  /-- `ldp a, b, [sp], #n` -/
  | ldpPost (a b : Reg) (n : Nat)
  /-- `bl preempt` -/
  | blPreempt

/-- Four vectors at `a`. -/
def storeVectors (m : Memory) (a : BitVec 64) (v : Fin 32 → BitVec 128)
    (n : Fin 32) : Memory :=
  let m := store m (addr a 0) 16 (v n)
  let m := store m (addr a 16) 16 (v (n + 1))
  let m := store m (addr a 32) 16 (v (n + 2))
  store m (addr a 48) 16 (v (n + 3))

def loadVectors (m : Memory) (a : BitVec 64) (v : Fin 32 → BitVec 128)
    (n : Fin 32) : Fin 32 → BitVec 128 :=
  let v := update v n (load m (addr a 0) 16)
  let v := update v (n + 1) (load m (addr a 16) 16)
  let v := update v (n + 2) (load m (addr a 32) 16)
  update v (n + 3) (load m (addr a 48) 16)

/-- `preempt` is the state after its `ret`, from the state in which it is
entered. -/
def exec (B : Build) (preempt : State → State) : Instr → State → State
  | .ldp a b base off, s =>
    (s.set a (load s.mem (addr (s.regs base) off) 8)).set b
      (load s.mem (addr (s.regs base) (off + 8)) 8)
  | .stp a b base off, s =>
    let m := store s.mem (addr (s.regs base) off) 8 (s.regs a)
    { s with mem := store m (addr (s.regs base) (off + 8)) 8 (s.regs b) }
  | .ldr dst base off, s =>
    s.set dst (load s.mem (addr (s.regs base) off) 8)
  | .str src base off, s =>
    { s with mem := store s.mem (addr (s.regs base) off) 8 (s.regs src) }
  | .mov dst src, s => s.set dst (s.regs src)
  | .addImm dst src n, s => s.set dst (addr (s.regs src) n)
  | .add dst a b, s => s.set dst (s.regs a + s.regs b)
  | .ld1 n base, s =>
    { s.set base (addr (s.regs base) 64) with
      v := loadVectors s.mem (s.regs base) s.v n }
  | .st1 n base, s =>
    { s.set base (addr (s.regs base) 64) with
      mem := storeVectors s.mem (s.regs base) s.v n }
  | .dmb, s => s
  | .strZero base, s => { s with mem := store s.mem (s.regs base) 4 0 }
  | .mrs dst, s => s.set dst s.tpidr
  | .adrpGot dst, s => s.set dst B.gotPage
  | .ldrw dst base off, s =>
    s.set dst ((load s.mem (addr (s.regs base) off) 4).setWidth 64)
  | .strw src base off, s =>
    { s with
      mem := store s.mem (addr (s.regs base) off) 4
        ((s.regs src).setWidth 32) }
  | .decw r, s =>
    let w := (s.regs r).setWidth 32 - 1
    { s.set r (w.setWidth 64) with z := w == 0 }
  | .stpPre a b, s =>
    let sp := s.regs .sp - 16
    let m := store s.mem (addr sp 0) 8 (s.regs a)
    { s.set .sp sp with mem := store m (addr sp 8) 8 (s.regs b) }
  | .ldpPost a b n, s =>
    let sp := s.regs .sp
    ((s.set .sp (addr sp n)).set a (load s.mem (addr sp 0) 8)).set b
      (load s.mem (addr sp 8) 8)
  | .blPreempt, s => preempt (s.set (.x 30) B.ret)

def isa (B : Build) (preempt : State → State) : Isa Instr Reg State where
  exec := exec B preempt
  flag := State.z
  reg := State.regs

namespace Tf

def R0 : Nat := 0
def R19 : Nat := 8
def R21 : Nat := 24
def R23 : Nat := 40
def R25 : Nat := 56
def R27 : Nat := 72
def R29 : Nat := 88
def R30 : Nat := 96
def IP : Nat := 104
def SP : Nat := 112
def V8 : Nat := 120

/-- `sizeof(struct thread_tf)`. -/
def size (B : Build) : Nat := if B.neon then 248 else 120

end Tf

theorem size_le (B : Build) : Tf.size B ≤ 248 := by
  rw [Tf.size]
  split <;> omega

def calleePairs : List (Reg × Reg × Nat) :=
  [(.x 19, .x 20, Tf.R19), (.x 21, .x 22, Tf.R21), (.x 23, .x 24, Tf.R23),
    (.x 25, .x 26, Tf.R25), (.x 27, .x 28, Tf.R27)]

def pairSlots (pairs : List (Reg × Reg × Nat)) : List (Reg × Nat) :=
  pairs.flatMap fun p => [(p.1, p.2.2), (p.2.1, p.2.2 + 8)]

def calleeSlots : List (Reg × Nat) :=
  pairSlots calleePairs ++ [(.x 29, Tf.R29)]

def layout : Layout Reg where
  callee := calleeSlots
  arg0 := Tf.R0
  bptr := Tf.R29
  iptr := Tf.IP
  sptr := Tf.SP
  lptr := some Tf.R30
  topWords := 2
  size := Tf.V8
  clear := by decide
  inside := by decide
  small := by decide
  bptr_mem := by decide
  regs_nodup := by decide

theorem layout_size_le (B : Build) : layout.size ≤ Tf.size B := by
  rw [Tf.size]
  split <;> decide

section Programs

variable (B : Build)

def saveCallee : List Instr :=
  calleePairs.map fun p => .stp p.1 p.2.1 (.x 0) p.2.2

def saveReturn : List Instr :=
  [.str (.x 29) (.x 0) Tf.R29, .mov (.x 29) .sp,
    .stp (.x 30) (.x 29) (.x 0) Tf.IP]

def saveVectors : List Instr :=
  if B.neon then
    [.addImm (.x 10) (.x 0) Tf.V8, .st1 8 (.x 10), .st1 12 (.x 10)]
  else []

def restoreCallee (base : Reg) : List Instr :=
  calleePairs.map fun p => .ldp p.1 p.2.1 base p.2.2

/-- Restore the frame pointer and the link register, fetch the target into
`x11`, and restore the stack pointer. -/
def restoreReturn (base : Reg) : List Instr :=
  [.ldp (.x 29) (.x 30) base Tf.R29, .ldp (.x 11) (.x 10) base Tf.IP,
    .mov .sp (.x 10)]

def restoreVectors (base : Reg) : List Instr :=
  if B.neon then
    [.addImm (.x 10) base Tf.V8, .ld1 8 (.x 10), .ld1 12 (.x 10)]
  else []

def decrement : List Instr :=
  if B.localExec then
    [.mrs (.x 9), .ldrw (.x 10) (.x 9) B.tprel, .decw (.x 10),
      .strw (.x 10) (.x 9) B.tprel]
  else
    [.mrs (.x 9), .adrpGot (.x 10), .ldr (.x 10) (.x 10) B.gottprel,
      .add (.x 9) (.x 9) (.x 10), .ldrw (.x 10) (.x 9) 0, .decw (.x 10),
      .strw (.x 10) (.x 9) 0]

/-- Restore the frame at `base` and enable preemption again. -/
def restoreFrame (base : Reg) : List Instr :=
  restoreCallee base ++ (restoreReturn base ++ (restoreVectors B base ++
    ([.ldr (.x 0) base Tf.R0] ++ decrement B)))

/-- Jump into the frame; on the cold path, after a call of `preempt` and a pop
that adds `pop` to the stack pointer. -/
def jumpInto (pop : Nat) : Code Instr Reg :=
  .branch
    (block [.stpPre (.x 11) (.x 0), .blPreempt, .ldpPost (.x 11) (.x 0) pop]
      (.jump (.x 11)))
    (.jump (.x 11))

def jmpThread : Code Instr Reg :=
  block (restoreFrame B (.x 0)) (jumpInto 16)

/-- The part of `__jmp_thread_direct` that saves the old frame. -/
def directSave : List Instr := saveReturn ++ (saveCallee ++ saveVectors B)

def jmpThreadDirect : Code Instr Reg :=
  block (directSave B ++ ([.dmb, .strZero (.x 2)] ++ restoreFrame B (.x 1)))
    (jumpInto 8)

/-- The part of `__jmp_runtime` that saves the frame. -/
def runtimeSave : List Instr := saveCallee ++ (saveReturn ++ saveVectors B)

def jmpRuntime : Code Instr Reg :=
  block (runtimeSave B ++ [.mov .sp (.x 2)]) (.jump (.x 1))

end Programs

/-- What the calling convention promises about `preempt`: the callee-saved
registers, the stack pointer, and the memory above it, of which two words
matter. -/
structure CallOk (preempt : State → State) : Prop where
  callee : ∀ s, ∀ p ∈ calleeSlots, (preempt s).regs p.1 = s.regs p.1
  sp : ∀ s, (preempt s).regs .sp = s.regs .sp
  above : ∀ s, Same s.mem (preempt s).mem (s.regs .sp) 16

def called (s : State) : Context where
  callee := calleeSlots.map fun p => s.regs p.1
  sp := s.regs .sp
  ip := s.regs (.x 30)
  arg0 := load s.mem (addr (s.regs (.x 0)) Tf.R0) 8

def resumed (final : State × BitVec 64) : Context where
  callee := calleeSlots.map fun p => final.1.regs p.1
  sp := final.1.regs .sp
  ip := final.2
  arg0 := final.1.regs (.x 0)

/-- Where the code finds `preempt_cnt`. -/
def cntAddr (B : Build) (s : State) : BitVec 64 :=
  if B.localExec then addr s.tpidr B.tprel
  else s.tpidr + load s.mem (addr B.gotPage B.gottprel) 8

def preemptCnt (B : Build) (s : State) : BitVec 32 :=
  load s.mem (cntAddr B s) 4

variable {B : Build} {preempt : State → State} {s : State}

@[simp]
theorem set_regs (s : State) (r : Reg) (w : BitVec 64) :
    (s.set r w).regs = update s.regs r w := rfl

@[simp]
theorem set_mem (s : State) (r : Reg) (w : BitVec 64) :
    (s.set r w).mem = s.mem := rfl

@[simp]
theorem set_tpidr (s : State) (r : Reg) (w : BitVec 64) :
    (s.set r w).tpidr = s.tpidr := rfl

variable {base : Reg} {tf : BitVec 64}

theorem runBlock_ldp {pairs : List (Reg × Reg × Nat)}
    (hbase : base ∉ (pairSlots pairs).map Prod.fst) :
    (isa B preempt).runBlock
        (pairs.map fun p => .ldp p.1 p.2.1 base p.2.2) s =
      { s with
        regs := restoreRegs s.mem (s.regs base) (pairSlots pairs) s.regs } := by
  induction pairs generalizing s with
  | nil => rfl
  | cons p rest ih =>
    obtain ⟨hfirst, hsecond, hrest⟩ : base ≠ p.1 ∧ base ≠ p.2.1 ∧
        base ∉ (pairSlots rest).map Prod.fst := by
      simpa [pairSlots] using hbase
    rw [List.map_cons, runBlock_cons, ih hrest]
    have hkeep : ((isa B preempt).exec (.ldp p.1 p.2.1 base p.2.2) s).regs
        base = s.regs base := by
      simp [isa, exec, update_of_ne hfirst, update_of_ne hsecond]
    rw [hkeep]
    rfl

theorem runBlock_stp {pairs : List (Reg × Reg × Nat)} :
    (isa B preempt).runBlock
        (pairs.map fun p => .stp p.1 p.2.1 (.x 0) p.2.2) s =
      { s with
        mem := writeSlots (s.regs (.x 0))
          ((pairSlots pairs).map fun p => (p.2, s.regs p.1)) s.mem } := by
  induction pairs generalizing s with
  | nil => rfl
  | cons p rest ih =>
    rw [List.map_cons, runBlock_cons, ih]
    rfl

theorem runBlock_saveReturn :
    (isa B preempt).runBlock saveReturn s =
      { s with
        regs := update s.regs (.x 29) (s.regs .sp)
        mem := writeSlots (s.regs (.x 0))
          [(Tf.R29, s.regs (.x 29)), (Tf.IP, s.regs (.x 30)),
            (Tf.SP, s.regs .sp)] s.mem } := by
  simp [saveReturn, runBlock_cons, isa, exec, State.set, writeSlots, Tf.IP,
    Tf.SP]

theorem runBlock_directGeneral :
    (isa B preempt).runBlock (saveReturn ++ saveCallee) s =
      { s with
        regs := update s.regs (.x 29) (s.regs .sp)
        mem := writeSlots (s.regs (.x 0))
          ([(Tf.R29, s.regs (.x 29)), (Tf.IP, s.regs (.x 30)),
            (Tf.SP, s.regs .sp)] ++
            (pairSlots calleePairs).map fun p => (p.2, s.regs p.1))
          s.mem } := by
  rw [runBlock_append, runBlock_saveReturn, saveCallee, runBlock_stp,
    writeSlots_append]
  rfl

theorem runBlock_runtimeGeneral :
    (isa B preempt).runBlock (saveCallee ++ saveReturn) s =
      { s with
        regs := update s.regs (.x 29) (s.regs .sp)
        mem := writeSlots (s.regs (.x 0))
          (((pairSlots calleePairs).map fun p => (p.2, s.regs p.1)) ++
            [(Tf.R29, s.regs (.x 29)), (Tf.IP, s.regs (.x 30)),
              (Tf.SP, s.regs .sp)]) s.mem } := by
  rw [runBlock_append, saveCallee, runBlock_stp, runBlock_saveReturn,
    writeSlots_append]

theorem storeVectors_changes (m : Memory) (a : BitVec 64)
    (v : Fin 32 → BitVec 128) (n : Fin 32) :
    Changes m (storeVectors m a v n) a 64 := by
  have hstore (m : Memory) (o : Nat) (w : BitVec 128) (ho : o + 16 ≤ 64) :
      Changes m (store m (addr a o) 16 w) a 64 :=
    (store_changes m _ w).widen ho
  apply (hstore m 0 (v n) (by omega)).trans
  apply (hstore _ 16 (v (n + 1)) (by omega)).trans
  apply (hstore _ 32 (v (n + 2)) (by omega)).trans
  exact hstore _ 48 (v (n + 3)) (by omega)

theorem saveVectors_changes (B : Build) (preempt : State → State) (s : State) :
    Changes s.mem ((isa B preempt).runBlock (saveVectors B) s).mem
      (addr (s.regs (.x 0)) Tf.V8) (Tf.size B - Tf.V8) := by
  rw [saveVectors]
  split
  · rename_i hneon
    have hsize : Tf.size B - Tf.V8 = 128 := by simp [Tf.size, hneon, Tf.V8]
    rw [hsize]
    simp only [runBlock_cons, runBlock_nil, isa, exec, set_regs, set_mem,
      update_self]
    have hsecond := storeVectors_changes (storeVectors s.mem
      (addr (s.regs (.x 0)) Tf.V8) s.v 8)
      (addr (addr (s.regs (.x 0)) Tf.V8) 64) s.v 12
    have hfirst := storeVectors_changes s.mem
      (addr (s.regs (.x 0)) Tf.V8) s.v 8
    rw [← addr_zero (addr (s.regs (.x 0)) Tf.V8)] at hfirst
    have hlow := hfirst.widen (n := 128) (by omega)
    rw [addr_zero] at hlow
    exact hlow.trans (hsecond.widen (by omega))
  · exact fun _ _ => rfl

theorem saveVectors_regs {r : Reg} (hr : r ≠ .x 10) :
    ((isa B preempt).runBlock (saveVectors B) s).regs r = s.regs r := by
  rw [saveVectors]
  split
  · simp [runBlock_cons, isa, exec, update_of_ne hr]
  · rfl

theorem frameAt_saveVectors :
    layout.frameAt ((isa B preempt).runBlock (saveVectors B) s).mem
      (s.regs (.x 0)) = layout.frameAt s.mem (s.regs (.x 0)) := by
  apply layout.frameAt_same
  apply (saveVectors_changes B preempt s).same
  have hsize : Tf.V8 + (Tf.size B - Tf.V8) ≤ 2 ^ 64 := by
    have := size_le B
    simp only [Tf.V8] at *
    omega
  have hapart : Apart (addr (s.regs (.x 0)) 0) layout.size
      (addr (s.regs (.x 0)) Tf.V8) (Tf.size B - Tf.V8) :=
    apart_slots _ (Or.inl (by decide)) (by decide) hsize
  rwa [addr_zero] at hapart

theorem saves_eq : layout.saves s.regs (s.regs (.x 30)) (s.regs .sp) =
    ((pairSlots calleePairs).map fun p => (p.2, s.regs p.1)) ++
      [(Tf.R29, s.regs (.x 29)), (Tf.IP, s.regs (.x 30)),
        (Tf.SP, s.regs .sp)] := rfl

theorem frameAt_directSave :
    layout.frameAt ((isa B preempt).runBlock (directSave B) s).mem
      (s.regs (.x 0)) = called s := by
  have hbase : ((isa B preempt).runBlock (saveReturn ++ saveCallee) s).regs
      (.x 0) = s.regs (.x 0) := by
    rw [runBlock_directGeneral]
    rfl
  rw [directSave, ← List.append_assoc, runBlock_append, ← hbase,
    frameAt_saveVectors, hbase, runBlock_directGeneral]
  apply layout.frameAt_save
  rw [saves_eq]
  exact List.perm_append_comm

theorem frameAt_runtimeSave :
    layout.frameAt ((isa B preempt).runBlock (runtimeSave B) s).mem
      (s.regs (.x 0)) = called s := by
  have hbase : ((isa B preempt).runBlock (saveCallee ++ saveReturn) s).regs
      (.x 0) = s.regs (.x 0) := by
    rw [runBlock_runtimeGeneral]
    rfl
  rw [runtimeSave, ← List.append_assoc, runBlock_append, ← hbase,
    frameAt_saveVectors, hbase, runBlock_runtimeGeneral]
  apply layout.frameAt_save
  rw [saves_eq]

theorem jmpRuntime_mem :
    ((jmpRuntime B).eval (isa B preempt) s).1.mem =
      ((isa B preempt).runBlock (runtimeSave B) s).mem := by
  rw [jmpRuntime, eval_block, runBlock_append]
  rfl

def Keeps (rs : List Reg) (s r : State) : Prop :=
  ∀ q, q ∉ rs → r.regs q = s.regs q

theorem restoreVectors_keeps (B : Build) (preempt : State → State) (s : State)
    (base : Reg) :
    let r := (isa B preempt).runBlock (restoreVectors B base) s
    Keeps [.x 10] s r ∧ r.mem = s.mem ∧ r.tpidr = s.tpidr := by
  rw [restoreVectors]
  split
  · refine ⟨?_, rfl, rfl⟩
    intro q hq
    have hne : q ≠ .x 10 := by simpa using hq
    simp [runBlock_cons, isa, exec, update_of_ne hne]
  · exact ⟨fun _ _ => rfl, rfl, rfl⟩

theorem word_dec_eq_zero (w : BitVec 32) :
    ((w.setWidth 64).setWidth 32 - 1 == 0) = decide (w = 1) := by
  rw [BitVec.setWidth_setWidth_of_le w (by decide), BitVec.setWidth_eq,
    Bool.eq_iff_iff, beq_iff_eq, decide_eq_true_iff]
  exact sub_eq_zero

theorem decrement_spec (B : Build) (preempt : State → State) (s : State) :
    let r := (isa B preempt).runBlock (decrement B) s
    Keeps [.x 9, .x 10] s r ∧ r.z = decide (preemptCnt B s = 1) := by
  have hne : Reg.x 9 ≠ .x 10 := by decide
  rw [decrement]
  split
  · rename_i hlocal
    constructor
    · intro q hq
      obtain ⟨hq9, hq10⟩ : q ≠ .x 9 ∧ q ≠ .x 10 := by simpa using hq
      simp [runBlock_cons, isa, exec, update_of_ne hq9, update_of_ne hq10]
    · simp only [runBlock_cons, runBlock_nil, isa, exec, set_regs, set_mem,
        update_self, word_dec_eq_zero, preemptCnt, cntAddr, hlocal, if_true]
  · rename_i hgot
    constructor
    · intro q hq
      obtain ⟨hq9, hq10⟩ : q ≠ .x 9 ∧ q ≠ .x 10 := by simpa using hq
      simp [runBlock_cons, isa, exec, update_of_ne hq9, update_of_ne hq10]
    · simp only [runBlock_cons, runBlock_nil, isa, exec, set_regs, set_mem,
        update_self, update_of_ne hne, word_dec_eq_zero,
        preemptCnt, cntAddr, hgot, addr_zero]
      rfl

def loadedSlots : List (Reg × Nat) :=
  pairSlots calleePairs ++
    [(.x 29, Tf.R29), (.x 30, Tf.R30), (.x 11, Tf.IP), (.x 10, Tf.SP)]

theorem loadedSlots_nodup : (loadedSlots.map Prod.fst).Nodup := by decide

def IsBase (base : Reg) : Prop :=
  base ∉ .x 9 :: .sp :: loadedSlots.map Prod.fst

instance (base : Reg) : Decidable (IsBase base) :=
  inferInstanceAs (Decidable (¬ _))

theorem runBlock_restoreReturn (hbase : IsBase base) :
    (isa B preempt).runBlock (restoreReturn base) s =
      { s with
        regs := update (restoreRegs s.mem (s.regs base)
          [(.x 29, Tf.R29), (.x 30, Tf.R30), (.x 11, Tf.IP), (.x 10, Tf.SP)]
          s.regs) .sp (load s.mem (addr (s.regs base) Tf.SP) 8) } := by
  have hne : base ≠ .x 29 ∧ base ≠ .x 30 := by
    constructor <;> (rintro rfl; exact absurd hbase (by decide))
  simp only [restoreReturn, runBlock_cons, runBlock_nil, isa, exec, State.set,
    update_of_ne hne.1, update_of_ne hne.2, update_self, restoreRegs]
  rfl

def loaded (base : Reg) (s : State) : State :=
  { s with
    regs := update
      (restoreRegs s.mem (s.regs base) loadedSlots s.regs) .sp
      (load s.mem (addr (s.regs base) Tf.SP) 8) }

theorem loaded_regs (base : Reg) (s : State) :
    (loaded base s).regs = update
      (restoreRegs s.mem (s.regs base) loadedSlots s.regs) .sp
      (load s.mem (addr (s.regs base) Tf.SP) 8) := rfl

theorem runBlock_restoreGeneral (hbase : IsBase base) :
    (isa B preempt).runBlock (restoreCallee base ++ restoreReturn base) s =
      loaded base s := by
  have hpairs : base ∉ (pairSlots calleePairs).map Prod.fst := by
    intro hmem
    apply hbase
    simp only [loadedSlots, List.map_append]
    exact List.mem_cons_of_mem _ (List.mem_cons_of_mem _
      (List.mem_append_left _ hmem))
  rw [runBlock_append, restoreCallee, runBlock_ldp hpairs,
    runBlock_restoreReturn hbase]
  simp only [loaded, restoreRegs_other hpairs, loadedSlots, restoreRegs_append]

structure Restored (m : Memory) (tf : BitVec 64) (r : State) : Prop where
  callee : ∀ p ∈ calleeSlots, r.regs p.1 = load m (addr tf p.2) 8
  sp : r.regs .sp = load m (addr tf Tf.SP) 8
  ip : r.regs (.x 11) = load m (addr tf Tf.IP) 8
  arg0 : r.regs (.x 0) = load m (addr tf Tf.R0) 8

theorem preemptCnt_congr {s r : State} (hmem : r.mem = s.mem)
    (htpidr : r.tpidr = s.tpidr) : preemptCnt B r = preemptCnt B s := by
  simp only [preemptCnt, cntAddr, hmem, htpidr]

theorem restoreRest_spec (B : Build) (preempt : State → State) (s : State)
    (hbase : base ≠ .x 10) :
    let r := (isa B preempt).runBlock (restoreVectors B base ++
      ([.ldr (.x 0) base Tf.R0] ++ decrement B)) s
    Keeps [.x 0, .x 9, .x 10] s r ∧
      r.regs (.x 0) = load s.mem (addr (s.regs base) Tf.R0) 8 ∧
      r.z = decide (preemptCnt B s = 1) := by
  rw [runBlock_append, runBlock_append]
  obtain ⟨hvec, hmem, htpidr⟩ := restoreVectors_keeps B preempt s base
  generalize (isa B preempt).runBlock (restoreVectors B base) s = u at *
  obtain ⟨hdec, hz⟩ := decrement_spec B preempt
    ((isa B preempt).runBlock [.ldr (.x 0) base Tf.R0] u)
  have hload : ((isa B preempt).runBlock [.ldr (.x 0) base Tf.R0] u).regs =
      update u.regs (.x 0)
        (load s.mem (addr (s.regs base) Tf.R0) 8) := by
    have hu : u.regs base = s.regs base := hvec base (by simpa using hbase)
    rw [← hmem, ← hu]
    rfl
  have hcnt : preemptCnt B ((isa B preempt).runBlock
      [.ldr (.x 0) base Tf.R0] u) = preemptCnt B s :=
    preemptCnt_congr hmem htpidr
  refine ⟨?_, ?_, ?_⟩
  · intro q hq
    obtain ⟨hq0, hq9, hq10⟩ : q ≠ .x 0 ∧ q ≠ .x 9 ∧ q ≠ .x 10 := by
      simpa using hq
    rw [hdec q (by simp [hq9, hq10]), hload, update_of_ne hq0]
    exact hvec q (by simpa using hq10)
  · rw [hdec (.x 0) (by decide), hload, update_self]
  · rw [hz, hcnt]

theorem restored_restoreFrame (B : Build) (preempt : State → State)
    (s : State) (hbase : IsBase base) :
    let r := (isa B preempt).runBlock (restoreFrame B base) s
    Restored s.mem (s.regs base) r ∧
      r.z = decide (preemptCnt B s = 1) := by
  have hne : base ≠ .x 10 ∧ base ≠ .sp := by
    constructor <;> (rintro rfl; exact absurd hbase (by decide))
  have hslots : base ∉ loadedSlots.map Prod.fst := fun hmem =>
    hbase (List.mem_cons_of_mem _ (List.mem_cons_of_mem _ hmem))
  have hfield : (loaded base s).regs base = s.regs base :=
    (update_of_ne hne.2 ..).trans (restoreRegs_other hslots)
  rw [restoreFrame, ← List.append_assoc, runBlock_append,
    runBlock_restoreGeneral hbase]
  obtain ⟨hkeeps, harg, hz⟩ :=
    restoreRest_spec B preempt (loaded base s) hne.1
  generalize (isa B preempt).runBlock _ (loaded base s) = r at *
  have hfound : ∀ p ∈ loadedSlots, p.1 ∉ [Reg.x 0, .x 9, .x 10] →
      r.regs p.1 = load s.mem (addr (s.regs base) p.2) 8 := by
    intro p hp hother
    have hsp : p.1 ≠ .sp := by revert p; decide
    rw [hkeeps p.1 hother, loaded_regs, update_of_ne hsp]
    exact restoreRegs_mem loadedSlots_nodup hp
  refine ⟨⟨?_, ?_, ?_, ?_⟩, ?_⟩
  · intro p hp
    have hp' : p ∈ loadedSlots ∧ p.1 ∉ [Reg.x 0, .x 9, .x 10] := by
      revert p; decide
    exact hfound p hp'.1 hp'.2
  · rw [hkeeps .sp (by decide), loaded_regs, update_self]
  · exact hfound (.x 11, Tf.IP) (by decide) (by decide)
  · rw [harg, hfield]
    rfl
  · rw [hz, preemptCnt_congr rfl rfl]
    rfl

/-- The state in which `preempt` is entered on the cold path. -/
def atPreempt (B : Build) (s : State) : State :=
  { s with
    regs := update (update s.regs .sp (s.regs .sp - 16))
      (.x 30) B.ret
    mem := writeSlots (s.regs .sp - 16)
      [(0, s.regs (.x 11)), (8, s.regs (.x 0))] s.mem }

theorem preempt_kept (hcall : CallOk preempt) (B : Build) (s : State) :
    let q := preempt (atPreempt B s)
    q.regs .sp = s.regs .sp - 16 ∧
      load q.mem (addr (s.regs .sp - 16) 0) 8 = s.regs (.x 11) ∧
      load q.mem (addr (s.regs .sp - 16) 8) 8 = s.regs (.x 0) := by
  have hentry : (atPreempt B s).regs .sp = s.regs .sp - 16 := by
    simp [atPreempt]
  have hsp := hcall.sp (atPreempt B s)
  have habove := hcall.above (atPreempt B s)
  rw [hentry] at hsp habove
  have hclear : [(0, s.regs (.x 11)), (8, s.regs (.x 0))].Pairwise
      fun w v => Clear w.1 v.1 := by
    simp [Clear]
  have hsmall : ∀ w ∈ [(0, s.regs (.x 11)), (8, s.regs (.x 0))],
      w.1 + 8 ≤ 2 ^ 64 := by
    simp
  have hfirst := habove.part (o := 0) (k := 8) (by decide)
  have hsecond := habove.part (o := 8) (k := 8) (by decide)
  refine ⟨hsp, hfirst.load.trans ?_, hsecond.load.trans ?_⟩
  · exact load_writeSlots hclear hsmall (by simp)
  · exact load_writeSlots hclear hsmall (by simp)

/-- On the cold path the stack pointer is 16 lower before the pop. -/
theorem resumed_jumpInto (hcall : CallOk preempt) (pop : Nat) :
    resumed ((jumpInto pop).eval (isa B preempt) s) =
      { callee := calleeSlots.map fun p => s.regs p.1
        sp := if s.z then addr (s.regs .sp - 16) pop else s.regs .sp
        ip := s.regs (.x 11)
        arg0 := s.regs (.x 0) } := by
  have hflag : (isa B preempt).flag s = s.z := rfl
  rw [jumpInto, Code.eval, hflag]
  split
  · obtain ⟨hsp, hlow, hhigh⟩ := preempt_kept hcall B s
    have henter : (isa B preempt).exec .blPreempt
        ((isa B preempt).exec (.stpPre (.x 11) (.x 0)) s) =
        preempt (atPreempt B s) := rfl
    rw [eval_block, runBlock_cons, runBlock_cons, henter]
    simp only [runBlock_cons, runBlock_nil, isa, exec, Code.eval, resumed,
      set_regs, hsp, hlow, hhigh, update_self, Context.mk.injEq, and_true,
      update_of_ne (show Reg.sp ≠ .x 0 by decide),
      update_of_ne (show Reg.sp ≠ .x 11 by decide),
      update_of_ne (show Reg.x 11 ≠ .x 0 by decide)]
    apply List.map_congr_left
    intro p hp
    have hne : p.1 ≠ .x 0 ∧ p.1 ≠ .x 11 ∧ p.1 ≠ .sp ∧ p.1 ≠ .x 30 := by
      revert p; decide
    rw [update_of_ne hne.1, update_of_ne hne.2.1,
      update_of_ne hne.2.2.1, hcall.callee _ p hp]
    simp only [atPreempt, update_of_ne hne.2.2.1, update_of_ne hne.2.2.2]
  · rfl

theorem resumed_restoreFrame (hcall : CallOk preempt) (pop : Nat)
    (hbase : IsBase base) :
    resumed ((block (restoreFrame B base) (jumpInto pop)).eval
      (isa B preempt) s) =
      { layout.frameAt s.mem (s.regs base) with
        sp := if preemptCnt B s = 1 then
            addr ((layout.frameAt s.mem (s.regs base)).sp - 16) pop
          else (layout.frameAt s.mem (s.regs base)).sp } := by
  obtain ⟨hrestored, hz⟩ := restored_restoreFrame B preempt s hbase
  rw [eval_block, resumed_jumpInto hcall]
  simp only [hz, hrestored.sp, hrestored.ip, hrestored.arg0,
    decide_eq_true_eq, Layout.frameAt, layout, Context.mk.injEq, and_true]
  apply List.map_congr_left
  intro p hp
  exact hrestored.callee p hp

theorem directSave_changes :
    Changes s.mem ((isa B preempt).runBlock (directSave B) s).mem
      (s.regs (.x 0)) (Tf.size B) := by
  have hgeneral : Changes s.mem ((isa B preempt).runBlock
      (saveReturn ++ saveCallee) s).mem (s.regs (.x 0)) layout.size := by
    rw [runBlock_directGeneral]
    apply Layout.Fills.changes
    apply layout.fills_of_saves
    rw [saves_eq]
    exact List.perm_append_comm
  have hbase : ((isa B preempt).runBlock (saveReturn ++ saveCallee) s).regs
      (.x 0) = s.regs (.x 0) := by
    rw [runBlock_directGeneral]
    rfl
  rw [← addr_zero (s.regs (.x 0))] at hgeneral
  have hsize := layout_size_le B
  have hlow := hgeneral.widen (n := Tf.size B) (by omega)
  have hhigh := saveVectors_changes B preempt
    ((isa B preempt).runBlock (saveReturn ++ saveCallee) s)
  rw [hbase] at hhigh
  rw [directSave, ← List.append_assoc, runBlock_append]
  apply hlow.trans
  apply hhigh.widen
  simp only [layout] at hsize
  omega

/-- The state of `__jmp_thread_direct` between its save and its restore. -/
def directHalf (B : Build) (preempt : State → State) (s : State) : State :=
  (isa B preempt).runBlock [.dmb, .strZero (.x 2)]
    ((isa B preempt).runBlock (directSave B) s)

theorem runBlock_clear (u : State) :
    (isa B preempt).runBlock [.dmb, .strZero (.x 2)] u =
      { u with mem := store u.mem (u.regs (.x 2)) 4 0 } := rfl

theorem directSave_regs {r : Reg} (hr : r ∉ [Reg.x 10, .x 29]) :
    ((isa B preempt).runBlock (directSave B) s).regs r = s.regs r := by
  obtain ⟨h10, h29⟩ : r ≠ .x 10 ∧ r ≠ .x 29 := by simpa using hr
  rw [directSave, ← List.append_assoc, runBlock_append,
    saveVectors_regs h10, runBlock_directGeneral]
  exact update_of_ne h29 ..

theorem directHalf_regs {r : Reg} (hr : r ∉ [Reg.x 10, .x 29]) :
    (directHalf B preempt s).regs r = s.regs r := by
  have hsave : ((isa B preempt).runBlock (directSave B) s).regs r =
      s.regs r := directSave_regs hr
  rw [directHalf, runBlock_clear]
  exact hsave

/-- Whatever is outside the old frame and the busy flag is not touched by the
first half of `__jmp_thread_direct`. -/
theorem directHalf_same {a : BitVec 64} {n : Nat}
    (hframe : Apart a n (s.regs (.x 0)) (Tf.size B))
    (hflag : Apart a n (s.regs (.x 2)) 4) :
    Same s.mem (directHalf B preempt s).mem a n := by
  have hx2 : ((isa B preempt).runBlock (directSave B) s).regs (.x 2) =
      s.regs (.x 2) := directSave_regs (by decide)
  have hsave : Same s.mem ((isa B preempt).runBlock (directSave B) s).mem
      a n := directSave_changes.same hframe
  rw [directHalf, runBlock_clear, hx2]
  generalize (isa B preempt).runBlock (directSave B) s = u at hsave
  exact hsave.trans (store_same 0 hflag)

theorem saveVectors_tpidr :
    ((isa B preempt).runBlock (saveVectors B) s).tpidr = s.tpidr := by
  rw [saveVectors]
  split <;> rfl

theorem directHalf_tpidr : (directHalf B preempt s).tpidr = s.tpidr := by
  rw [directHalf, runBlock_clear, directSave, ← List.append_assoc,
    runBlock_append, saveVectors_tpidr, runBlock_directGeneral]

/-- What the code reads to find `preempt_cnt`, and the count itself. -/
structure CntApart (B : Build) (s : State) (b : BitVec 64) (k : Nat) :
    Prop where
  cnt : Apart (cntAddr B s) 4 b k
  got : Apart (addr B.gotPage B.gottprel) 8 b k

theorem preemptCnt_directHalf
    (hframe : CntApart B s (s.regs (.x 0)) (Tf.size B))
    (hflag : CntApart B s (s.regs (.x 2)) 4) :
    preemptCnt B (directHalf B preempt s) = preemptCnt B s := by
  have hgot : Same s.mem (directHalf B preempt s).mem
      (addr B.gotPage B.gottprel) 8 := directHalf_same hframe.got hflag.got
  have haddr : cntAddr B (directHalf B preempt s) = cntAddr B s := by
    simp only [cntAddr, hgot.load, directHalf_tpidr]
  rw [preemptCnt, haddr]
  exact (directHalf_same hframe.cnt hflag.cnt).load

def restore (B : Build) : Restorer → Code Instr Reg
  | .thread => jmpThread B
  | .direct => jmpThreadDirect B

/-- The routine is called to restore the frame at `tf`. The direct switch also
writes another frame, and the busy flag of another thread; neither is where
the preemption count is. -/
def Restores (B : Build) (tf : BitVec 64) : Restorer → State → Prop
  | .thread, r => r.regs (.x 0) = tf
  | .direct, r => r.regs (.x 1) = tf ∧
      Apart tf (Tf.size B) (r.regs (.x 0)) (Tf.size B) ∧
      Apart tf (Tf.size B) (r.regs (.x 2)) 4 ∧
      CntApart B r (r.regs (.x 0)) (Tf.size B) ∧
      CntApart B r (r.regs (.x 2)) 4

def finalSp (B : Build) (how : Restorer) (s : State) (sp : BitVec 64) :
    BitVec 64 :=
  if how = .direct ∧ preemptCnt B s = 1 then sp - 8 else sp

theorem resumed_restore (hcall : CallOk preempt)
    {how : Restorer} (hrestores : Restores B tf how s) :
    resumed ((restore B how).eval (isa B preempt) s) =
      { layout.frameAt s.mem tf with
        sp := finalSp B how s (layout.frameAt s.mem tf).sp } := by
  cases how with
  | thread =>
    have htf : s.regs (.x 0) = tf := hrestores
    have hpop (sp : BitVec 64) : addr (sp - 16) 16 = sp := by
      simp only [addr]; bv_omega
    rw [restore, jmpThread, resumed_restoreFrame hcall 16 (by decide), htf]
    simp only [hpop, ite_self, finalSp, reduceCtorEq, false_and, if_false]
  | direct =>
    obtain ⟨htf, hframe, hflag, hcntFrame, hcntFlag⟩ := hrestores
    have hpop (sp : BitVec 64) : addr (sp - 16) 8 = sp - 8 := by
      simp only [addr]; bv_omega
    have hnew : (directHalf B preempt s).regs (.x 1) = tf :=
      (directHalf_regs (by decide)).trans htf
    have hsame : Same s.mem (directHalf B preempt s).mem tf (Tf.size B) :=
      directHalf_same hframe hflag
    have hkept : layout.frameAt (directHalf B preempt s).mem tf =
        layout.frameAt s.mem tf :=
      layout.frameAt_same (hsame.first (layout_size_le B))
    rw [restore, jmpThreadDirect, eval_block, runBlock_append,
      runBlock_append, ← eval_block]
    have hrestored := resumed_restoreFrame (B := B)
      (s := directHalf B preempt s) hcall 8 (show IsBase (.x 1) by decide)
    rw [hnew, hkept, preemptCnt_directHalf hcntFrame hcntFlag] at hrestored
    simp only [hpop] at hrestored
    simp only [finalSp, true_and]
    exact hrestored

/-- The frame at `tf` has just been given the context: a thread has called one
of the saving routines, or `thread_create` has made a thread, whose frame is
outside its stack. -/
inductive Built (B : Build) (preempt : State → State) :
    (tf : BitVec 64) → Context → Memory → Prop
  | direct (s : State) :
      Built B preempt (s.regs (.x 0)) (called s)
        ((isa B preempt).runBlock (directSave B) s).mem
  | runtime (s : State) :
      Built B preempt (s.regs (.x 0)) (called s)
        ((jmpRuntime B).eval (isa B preempt) s).1.mem
  | create (m : Memory) (th stack threadExit fn arg : BitVec 64)
      (hstack : Apart th (Tf.size B) (addr stack (8 * (stackPtrSize - 2))) 8) :
      Built B preempt th (layout.newContext m th stack fn arg)
        (layout.threadCreate m th stack threadExit fn arg)

theorem Built.frameAt {c : Context} {m : Memory}
    (hbuilt : Built B preempt tf c m) : layout.frameAt m tf = c := by
  cases hbuilt with
  | direct s => exact frameAt_directSave
  | runtime s =>
    rw [jmpRuntime_mem]
    exact frameAt_runtimeSave
  | create m th stack threadExit fn arg hstack =>
    exact layout.frameAt_threadCreate (hstack.first (layout_size_le B))

theorem resumed_built (hcall : CallOk preempt) {c : Context}
    {m : Memory} (hbuilt : Built B preempt tf c m)
    (hkept : Same m s.mem tf (Tf.size B)) {how : Restorer}
    (hrestores : Restores B tf how s) :
    resumed ((restore B how).eval (isa B preempt) s) =
      { c with sp := finalSp B how s c.sp } := by
  rw [resumed_restore hcall hrestores,
    layout.frameAt_same (hkept.first (layout_size_le B)), hbuilt.frameAt]

theorem resumed_built_iff (hcall : CallOk preempt) {c : Context} {m : Memory}
    (hbuilt : Built B preempt tf c m) (hkept : Same m s.mem tf (Tf.size B))
    {how : Restorer} (hrestores : Restores B tf how s) :
    resumed ((restore B how).eval (isa B preempt) s) = c ↔
      ¬ (how = .direct ∧ preemptCnt B s = 1) := by
  rw [resumed_built hcall hbuilt hkept hrestores, finalSp]
  split
  · rename_i hcold
    have hlow : c.sp - 8 ≠ c.sp := by bv_omega
    constructor
    · intro heq
      exact absurd (congrArg Context.sp heq) hlow
    · intro hnot
      exact absurd hcold hnot
  · rename_i hnot
    exact iff_of_true rfl hnot

end Libut.Runtime.Arm
