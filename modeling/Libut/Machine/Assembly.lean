import Libut.Machine.Memory

/-!
Short pieces of assembly code. A piece runs instructions in order, may branch
forward on a flag, and ends with a jump through a register. Whoever models an
instruction set says what an instruction does to a state; here is what follows
for blocks of instructions, and for values that are stored in the slots of a
frame and loaded from there into registers.
-/

namespace Libut.Machine

section Code

variable {ι ρ σ : Type*}

structure Isa (ι ρ σ : Type*) where
  exec : ι → σ → σ
  flag : σ → Bool
  reg : σ → ρ → BitVec 64

inductive Code (ι ρ : Type*)
  | run (i : ι) (rest : Code ι ρ)
  | branch (cold rest : Code ι ρ)
  | jump (r : ρ)

def Code.eval (M : Isa ι ρ σ) : Code ι ρ → σ → σ × BitVec 64
  | .run i rest, s => rest.eval M (M.exec i s)
  | .branch cold rest, s =>
    if M.flag s then cold.eval M s else rest.eval M s
  | .jump r, s => (s, M.reg s r)

def block (is : List ι) (rest : Code ι ρ) : Code ι ρ := is.foldr .run rest

def Isa.runBlock (M : Isa ι ρ σ) (is : List ι) (s : σ) : σ :=
  is.foldl (fun s i => M.exec i s) s

variable {M : Isa ι ρ σ} {s : σ}

theorem eval_block (is : List ι) (rest : Code ι ρ) :
    (block is rest).eval M s = rest.eval M (M.runBlock is s) := by
  induction is generalizing s with
  | nil => rfl
  | cons i is ih => exact ih

theorem runBlock_append (is js : List ι) :
    M.runBlock (is ++ js) s = M.runBlock js (M.runBlock is s) :=
  List.foldl_append

theorem runBlock_cons (i : ι) (is : List ι) :
    M.runBlock (i :: is) s = M.runBlock is (M.exec i s) := rfl

@[simp]
theorem runBlock_nil : M.runBlock [] s = s := rfl

end Code

section Slots

open Memory

variable {ρ : Type*} {m : Memory} {regs : ρ → BitVec 64} {base : BitVec 64}
  {slots : List (ρ × Nat)} {ws : List (Nat × BitVec 64)} {size : Nat}

def Clear (o o' : Nat) : Prop := o + 8 ≤ o' ∨ o' + 8 ≤ o

instance : DecidableRel Clear := fun _ _ => inferInstanceAs (Decidable (_ ∨ _))

instance : Std.Symm Clear := ⟨fun _ _ h => Or.symm h⟩

def writeSlots (base : BitVec 64) : List (Nat × BitVec 64) → Memory → Memory
  | [], m => m
  | (off, v) :: rest, m => writeSlots base rest (store m (addr base off) 8 v)

def restoreRegs [DecidableEq ρ] (m : Memory) (base : BitVec 64) :
    List (ρ × Nat) → (ρ → BitVec 64) → ρ → BitVec 64
  | [], regs => regs
  | (r, off) :: rest, regs =>
    restoreRegs m base rest
      (Function.update regs r (load m (addr base off) 8))

theorem writeSlots_append (ws ws' : List (Nat × BitVec 64)) :
    writeSlots base (ws ++ ws') m =
      writeSlots base ws' (writeSlots base ws m) := by
  induction ws generalizing m with
  | nil => rfl
  | cons w rest ih => exact ih

theorem writeSlots_changes (hsize : ∀ w ∈ ws, w.1 + 8 ≤ size) :
    Changes m (writeSlots base ws m) base size := by
  induction ws generalizing m with
  | nil => exact fun _ _ => rfl
  | cons w rest ih =>
    have hfirst : w.1 + 8 ≤ size := hsize w List.mem_cons_self
    have hstore : Changes m (store m (addr base w.1) 8 w.2) base size :=
      (store_changes m _ _).widen hfirst
    exact hstore.trans
      (ih fun v hv => hsize v (List.mem_cons_of_mem w hv))

theorem load_writeSlots_apart {a : BitVec 64} {n : Nat}
    (hapart : ∀ w ∈ ws, Apart a n (addr base w.1) 8) :
    load (writeSlots base ws m) a n = load m a n := by
  induction ws generalizing m with
  | nil => rfl
  | cons w rest ih =>
    have hfirst : Apart a n (addr base w.1) 8 := hapart w List.mem_cons_self
    rw [writeSlots, ih fun v hv => hapart v (List.mem_cons_of_mem w hv),
      load_store_apart hfirst]

theorem load_writeSlots_other {o : Nat} (ho : o + 8 ≤ 2 ^ 64)
    (hsize : ∀ w ∈ ws, w.1 + 8 ≤ 2 ^ 64) (hclear : ∀ w ∈ ws, Clear o w.1) :
    load (writeSlots base ws m) (addr base o) 8 = load m (addr base o) 8 := by
  apply load_writeSlots_apart
  intro w hw
  exact apart_slots base (hclear w hw) ho (hsize w hw)

theorem load_writeSlots (hclear : ws.Pairwise fun w v => Clear w.1 v.1)
    (hsize : ∀ w ∈ ws, w.1 + 8 ≤ 2 ^ 64) {o : Nat} {v : BitVec 64}
    (hw : (o, v) ∈ ws) : load (writeSlots base ws m) (addr base o) 8 = v := by
  induction ws generalizing m with
  | nil => cases hw
  | cons w rest ih =>
    obtain ⟨hfirst, hrest⟩ := List.pairwise_cons.mp hclear
    have hlater : ∀ u ∈ rest, u.1 + 8 ≤ 2 ^ 64 := fun u hu =>
      hsize u (List.mem_cons_of_mem w hu)
    rw [writeSlots]
    rcases List.mem_cons.mp hw with rfl | hmem
    · rw [load_writeSlots_other (hsize (o, v) List.mem_cons_self) hlater hfirst]
      exact load_store (by decide) _
    · exact ih hrest hlater hmem

theorem restoreRegs_append [DecidableEq ρ] (slots slots' : List (ρ × Nat)) :
    restoreRegs m base (slots ++ slots') regs =
      restoreRegs m base slots' (restoreRegs m base slots regs) := by
  induction slots generalizing regs with
  | nil => rfl
  | cons p rest ih => exact ih

theorem restoreRegs_other [DecidableEq ρ] {r : ρ}
    (hr : r ∉ slots.map Prod.fst) :
    restoreRegs m base slots regs r = regs r := by
  induction slots generalizing regs with
  | nil => rfl
  | cons p rest ih =>
    rw [List.map_cons, List.mem_cons, not_or] at hr
    rw [restoreRegs, ih hr.2]
    exact Function.update_of_ne hr.1 ..

theorem restoreRegs_mem [DecidableEq ρ] (hslots : (slots.map Prod.fst).Nodup)
    {p : ρ × Nat} (hp : p ∈ slots) :
    restoreRegs m base slots regs p.1 = load m (addr base p.2) 8 := by
  induction slots generalizing regs with
  | nil => cases hp
  | cons q rest ih =>
    rw [List.map_cons, List.nodup_cons] at hslots
    rw [restoreRegs]
    rcases List.mem_cons.mp hp with rfl | hmem
    · rw [restoreRegs_other hslots.1]
      exact Function.update_self ..
    · exact ih hslots.2 hmem

end Slots

end Libut.Machine
