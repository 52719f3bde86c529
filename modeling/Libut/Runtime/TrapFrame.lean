import Libut.Machine.Assembly

/-!
Trap frames (`struct thread_tf` in `runtime/defs.h`). What a frame holds is the
context of a thread that does not run: its callee-saved registers, its stack
pointer, the address at which it goes on, and the first argument of its entry
function. The architectures differ in the offsets. A thread that has not run
yet has the frame that `thread_create` (`runtime/sched.c`) writes.
-/

namespace Libut.Runtime

open Machine Memory

structure Context where
  callee : List (BitVec 64)
  sp : BitVec 64
  ip : BitVec 64
  arg0 : BitVec 64
  deriving DecidableEq

inductive Restorer
  /-- `__jmp_thread` -/
  | thread
  /-- `__jmp_thread_direct` -/
  | direct
  deriving DecidableEq, Repr

/-- `STACK_PTR_SIZE`: words of a stack of 128 KB. -/
def stackPtrSize : Nat := 128 * 1024 / 8

structure Offsets (ρ : Type*) where
  callee : List (ρ × Nat)
  arg0 : Nat
  bptr : Nat
  iptr : Nat
  sptr : Nat
  lptr : Option Nat
  topWords : Nat
  size : Nat

def Offsets.slots {ρ : Type*} (L : Offsets ρ) : List Nat :=
  L.callee.map Prod.snd ++ ([L.arg0, L.iptr, L.sptr] ++ L.lptr.toList)

structure Layout (ρ : Type*) extends Offsets ρ where
  clear : toOffsets.slots.Pairwise Clear
  inside : ∀ o ∈ toOffsets.slots, o + 8 ≤ size
  small : size ≤ 2 ^ 64
  bptr_mem : bptr ∈ callee.map Prod.snd
  regs_nodup : (callee.map Prod.fst).Nodup

namespace Layout

variable {ρ : Type*} (L : Layout ρ) {m m' : Memory} {tf : BitVec 64}

def frameAt (m : Memory) (tf : BitVec 64) : Context where
  callee := L.callee.map fun p => load m (addr tf p.2) 8
  sp := load m (addr tf L.sptr) 8
  ip := load m (addr tf L.iptr) 8
  arg0 := load m (addr tf L.arg0) 8

theorem callee_mem {p : ρ × Nat} (hp : p ∈ L.callee) : p.2 ∈ L.slots :=
  List.mem_append_left _ (List.mem_map_of_mem hp)

theorem arg0_mem : L.arg0 ∈ L.slots := by simp [Offsets.slots]

theorem iptr_mem : L.iptr ∈ L.slots := by simp [Offsets.slots]

theorem sptr_mem : L.sptr ∈ L.slots := by simp [Offsets.slots]

theorem slot_small {o : Nat} (ho : o ∈ L.slots) : o + 8 ≤ 2 ^ 64 :=
  (L.inside o ho).trans L.small

theorem frameAt_congr (h : ∀ o ∈ L.slots,
    load m' (addr tf o) 8 = load m (addr tf o) 8) :
    L.frameAt m' tf = L.frameAt m tf := by
  simp only [frameAt, h _ L.arg0_mem, h _ L.iptr_mem, h _ L.sptr_mem,
    Context.mk.injEq, and_true]
  apply List.map_congr_left
  intro p hp
  exact h _ (L.callee_mem hp)

theorem frameAt_same (h : Same m m' tf L.size) :
    L.frameAt m' tf = L.frameAt m tf :=
  L.frameAt_congr fun o ho => (h.part (L.inside o ho)).load

theorem slots_nodup : L.slots.Nodup := by
  apply L.clear.imp
  intro o o' hclear heq
  subst heq
  rcases hclear with hlt | hlt <;> omega

theorem clear_of_ne {o o' : Nat} (ho : o ∈ L.slots) (ho' : o' ∈ L.slots)
    (hne : o ≠ o') : Clear o o' :=
  L.clear.forall ho ho' hne

def Fills (ws : List (Nat × BitVec 64)) : Prop :=
  (ws.map Prod.fst).Subperm L.slots

variable {L} {ws : List (Nat × BitVec 64)} {o : Nat} {v : BitVec 64}

section

variable (h : L.Fills ws)
include h

theorem Fills.mem {w : Nat × BitVec 64} (hw : w ∈ ws) :
    w.1 ∈ L.slots := h.subset (List.mem_map_of_mem hw)

theorem Fills.small : ∀ w ∈ ws, w.1 + 8 ≤ 2 ^ 64 :=
  fun _ hw => L.slot_small (h.mem hw)

theorem Fills.clear : ws.Pairwise fun w v => Clear w.1 v.1 := by
  obtain ⟨os, hperm, hsub⟩ := h
  have hslots : (ws.map Prod.fst).Pairwise Clear :=
    (hperm.pairwise_iff fun h => symm h).mp (L.clear.sublist hsub)
  exact List.pairwise_map.mp hslots

theorem Fills.load (hw : (o, v) ∈ ws) :
    load (writeSlots tf ws m) (addr tf o) 8 = v :=
  load_writeSlots h.clear h.small hw

theorem Fills.load_other (ho : o ∈ L.slots) (hother : o ∉ ws.map Prod.fst) :
    Memory.load (writeSlots tf ws m) (addr tf o) 8 =
      Memory.load m (addr tf o) 8 := by
  apply load_writeSlots_other (L.slot_small ho) h.small
  intro w hw
  apply L.clear_of_ne ho (h.mem hw)
  intro heq
  exact hother (heq ▸ List.mem_map_of_mem hw)

theorem Fills.changes : Changes m (writeSlots tf ws m) tf L.size :=
  writeSlots_changes fun _ hw => L.inside _ (h.mem hw)

end

variable (L)

def saves (regs : ρ → BitVec 64) (ip sp : BitVec 64) :
    List (Nat × BitVec 64) :=
  L.callee.map (fun p => (p.2, regs p.1)) ++ [(L.iptr, ip), (L.sptr, sp)]

theorem saves_slots (regs : ρ → BitVec 64) (ip sp : BitVec 64) :
    (L.saves regs ip sp).map Prod.fst =
      L.callee.map Prod.snd ++ [L.iptr, L.sptr] := by
  simp [saves, Function.comp_def]

theorem fills_of_saves {regs : ρ → BitVec 64} {ip sp : BitVec 64}
    (hws : ws.Perm (L.saves regs ip sp)) : L.Fills ws := by
  have hsub : (L.callee.map Prod.snd ++ [L.iptr, L.sptr]).Sublist L.slots := by
    apply List.Sublist.append_left
    have hcons : [L.iptr, L.sptr].Sublist [L.arg0, L.iptr, L.sptr] :=
      List.sublist_cons_self _ _
    exact hcons.trans (List.sublist_append_left _ _)
  rw [← L.saves_slots regs ip sp] at hsub
  exact (hws.map Prod.fst).subperm.trans hsub.subperm

/-- A context is found in the frame it was saved in, whatever the order of the
stores. -/
theorem frameAt_save {regs : ρ → BitVec 64} {ip sp : BitVec 64}
    (hws : ws.Perm (L.saves regs ip sp)) :
    L.frameAt (writeSlots tf ws m) tf =
      { callee := L.callee.map fun p => regs p.1
        sp := sp
        ip := ip
        arg0 := load m (addr tf L.arg0) 8 } := by
  have hfills : L.Fills ws := L.fills_of_saves hws
  have hfound {o : Nat} {v : BitVec 64} (h : (o, v) ∈ L.saves regs ip sp) :
      load (writeSlots tf ws m) (addr tf o) 8 = v :=
    hfills.load (hws.mem_iff.mpr h)
  have hsp := hfound (show (L.sptr, sp) ∈ L.saves regs ip sp by simp [saves])
  have hip := hfound (show (L.iptr, ip) ∈ L.saves regs ip sp by simp [saves])
  have harg : load (writeSlots tf ws m) (addr tf L.arg0) 8 =
      load m (addr tf L.arg0) 8 := by
    apply hfills.load_other L.arg0_mem
    rw [(hws.map Prod.fst).mem_iff, L.saves_slots]
    have hnodup := L.slots_nodup
    simp only [Offsets.slots, List.nodup_append, List.nodup_cons] at hnodup
    grind
  simp only [frameAt, hsp, hip, harg, Context.mk.injEq, and_true]
  apply List.map_congr_left
  intro p hp
  exact hfound (List.mem_append_left _ (List.mem_map.mpr ⟨p, hp, rfl⟩))

/-- `stack_init_to_rsp`: the memory and the stack pointer it returns. -/
def stackInitToRsp (m : Memory) (stack exitFn : BitVec 64) :
    Memory × BitVec 64 :=
  let rsp := addr stack (8 * (stackPtrSize - L.topWords))
  (store m rsp 8 exitFn, rsp)

/-- The slots that `thread_create` fills, in order. -/
def creates (rsp threadExit fn arg : BitVec 64) : List (Nat × BitVec 64) :=
  (L.sptr, rsp) :: (L.lptr.toList.map fun o => (o, threadExit)) ++
    [(L.arg0, arg), (L.bptr, 0), (L.iptr, fn)]

/-- What `thread_create` does to the memory once the thread at `th` and its
stack are allocated. The frame is the first field of a thread; the other
fields are not written here. -/
def threadCreate (m : Memory) (th stack threadExit fn arg : BitVec 64) :
    Memory :=
  let (m, rsp) := L.stackInitToRsp m stack threadExit
  writeSlots th (L.creates rsp threadExit fn arg) m

/-- The context in which a new thread starts. Its callee-saved registers are
what the memory of the thread happened to hold, except for the base
pointer. -/
def newContext (m : Memory) (th stack fn arg : BitVec 64) : Context where
  callee := L.callee.map fun p =>
    if p.2 = L.bptr then 0 else load m (addr th p.2) 8
  sp := addr stack (8 * (stackPtrSize - L.topWords))
  ip := fn
  arg0 := arg

theorem fills_creates (rsp threadExit fn arg : BitVec 64) :
    L.Fills (L.creates rsp threadExit fn arg) := by
  have hslots : (L.creates rsp threadExit fn arg).map Prod.fst =
      L.sptr :: L.lptr.toList ++ [L.arg0, L.bptr, L.iptr] := by
    simp [creates, Function.comp_def]
  have hbptr := L.bptr_mem
  have hnodup := L.slots_nodup
  simp only [Offsets.slots, List.nodup_append, List.nodup_cons] at hnodup
  rw [Fills, hslots]
  apply List.Nodup.subperm
  · cases hlptr : L.lptr <;> grind
  · intro o ho
    simp only [Offsets.slots]
    grind

theorem frameAt_threadCreate {th stack threadExit fn arg : BitVec 64}
    (hstack : Apart th L.size
      (addr stack (8 * (stackPtrSize - L.topWords))) 8) :
    L.frameAt (L.threadCreate m th stack threadExit fn arg) th =
      L.newContext m th stack fn arg := by
  have hfills := L.fills_creates
    (addr stack (8 * (stackPtrSize - L.topWords))) threadExit fn arg
  simp only [frameAt, threadCreate, stackInitToRsp, newContext,
    Context.mk.injEq]
  refine ⟨?_, ?_, ?_, ?_⟩
  · apply List.map_congr_left
    intro p hp
    split
    · rename_i hbptr
      exact hfills.load (by simp [creates, hbptr])
    · rename_i hother
      rw [hfills.load_other (L.callee_mem hp)]
      · exact load_store_apart (hstack.part (L.inside _ (L.callee_mem hp)))
      · have hnodup := L.slots_nodup
        simp only [Offsets.slots, List.nodup_append, List.nodup_cons] at hnodup
        have hslot : p.2 ∈ L.callee.map Prod.snd := List.mem_map_of_mem hp
        simp only [creates, List.map_cons, List.map_append, List.map_map]
        grind
  · exact hfills.load (by simp [creates])
  · exact hfills.load (by simp [creates])
  · exact hfills.load (by simp [creates])

end Layout

end Libut.Runtime
