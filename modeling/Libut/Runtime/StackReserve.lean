import Mathlib.Data.List.Perm.Subperm
import Libut.Machine.Places
import Libut.Machine.System

/-!
Where stacks come from (`runtime/stack.c`). `stack_tcache_alloc` takes freed
stacks under `stack_lock`, then reserves an address for each stack that is
still missing with an atomic operation on `stack_pos` and has it mapped there;
if a mapping fails, it frees what it has gathered. The critical sections, the
atomic operation and the mapping are steps of their own, for any number of
calls at once. The address that `mmap` chooses is part of a label: it is not
that of a stack that exists.

The atomic operation is `atomic64_fetch_and_and`. It does not advance
`stack_pos`: the base address and the size of a stack have no bit in common,
so that every address after the first is 0.

For the statements the model keeps the addresses given to `stack_create`, the
stacks that exist and those that calls have handed out.
-/

namespace Libut.Runtime.Stacks

open Function Machine

def stackBaseAddr : BitVec 64 := 0x200000000000

def runtimeMaxThreads : Nat := 100000

def tcacheDefaultMagSize : Nat := 8

def runtimeStackSize : Nat := 128 * 1024

def runtimeGuardSize : Nat := 128 * 1024

/-- `sizeof(struct stack)`: two arrays of `uintptr_t` -/
def sizeofStack : Nat := runtimeStackSize / 8 * 8 + runtimeGuardSize / 8 * 8

inductive Pc
  | idle
  /-- In `stack_tcache_alloc`, before the test of the loop. -/
  | filling (nr : Nat) (items : List (BitVec 64))
  /-- In `stack_create(base)`. -/
  | creating (nr : Nat) (items : List (BitVec 64)) (base : BitVec 64)
  /-- In `stack_tcache_free`, called by a failing `stack_tcache_alloc` or
  not. -/
  | freeing (items : List (BitVec 64)) (failed : Bool)
  deriving DecidableEq, Repr

def Pc.items : Pc → List (BitVec 64)
  | .idle => []
  | .filling _ items => items
  | .creating _ items _ => items
  | .freeing items _ => items

structure State (κ : Type) where
  stackPos : BitVec 64
  /-- `free_stacks[0..free_stack_count)`, last to first. -/
  freeStacks : List (BitVec 64)
  pc : κ → Pc
  bases : List (BitVec 64)
  created : List (BitVec 64)
  out : List (BitVec 64)

inductive Act (κ : Type)
  /-- `stack_tcache_alloc` up to the end of its critical section -/
  | take (k : κ) (nr : Nat)
  | fetch (k : κ)
  /-- `stack_create`, which returns the address it is given here or fails -/
  | create (k : κ) (mapped : Option (BitVec 64))
  /-- The end of `stack_tcache_alloc`. -/
  | finish (k : κ)
  /-- `stack_tcache_free` up to its critical section -/
  | free (k : κ) (items : List (BitVec 64))
  /-- The critical section of `stack_tcache_free`. -/
  | giveBack (k : κ)

variable {κ : Type} [DecidableEq κ]

def State.goto (s : State κ) (k : κ) (p : Pc) : State κ :=
  { s with pc := update s.pc k p }

/-- The loop in the critical section of `stack_tcache_free` and the check
after it. There is no result if a store is behind the array. -/
def pushStacks (freeStacks items : List (BitVec 64)) :
    Option (List (BitVec 64)) :=
  let after := items.reverse ++ freeStacks
  if runtimeMaxThreads < after.length then none
  else if runtimeMaxThreads + tcacheDefaultMagSize ≤ after.length then none
  else some after

def next (s : State κ) : Act κ → Option (State κ)
  | .take k nr =>
    if s.pc k = .idle then
      some { s.goto k (.filling nr (s.freeStacks.take nr)) with
        freeStacks := s.freeStacks.drop nr }
    else none
  | .fetch k =>
    match s.pc k with
    | .filling nr items =>
      if items.length < nr then
        some { s.goto k (.creating nr items s.stackPos) with
          stackPos := s.stackPos &&& BitVec.ofNat 64 sizeofStack
          bases := s.bases ++ [s.stackPos] }
      else none
    | _ => none
  | .create k mapped =>
    match s.pc k with
    | .creating nr items _ =>
      match mapped with
      | some addr =>
        if s.created.contains addr then none
        else
          some { s.goto k (.filling nr (items ++ [addr])) with
            created := addr :: s.created }
      | none => some (s.goto k (.freeing items true))
    | _ => none
  | .finish k =>
    match s.pc k with
    | .filling nr items =>
      if items.length < nr then none
      else some { s.goto k .idle with out := items ++ s.out }
    | _ => none
  | .free k items =>
    if s.pc k = .idle ∧ items.Nodup ∧ items ⊆ s.out then
      some { s.goto k (.freeing items false) with out := s.out.diff items }
    else none
  | .giveBack k =>
    match s.pc k with
    | .freeing items _ =>
      (pushStacks s.freeStacks items).map fun freeStacks =>
        { s.goto k .idle with freeStacks := freeStacks }
    | _ => none

inductive Place (κ : Type)
  | free
  | call (k : κ)
  | out

omit [DecidableEq κ] in
def State.stacksAt (s : State κ) : Place κ → List (BitVec 64)
  | .free => s.freeStacks
  | .call k => (s.pc k).items
  | .out => s.out

def Apart (a b : BitVec 64) : Prop :=
  a.toNat + sizeofStack ≤ b.toNat ∨ b.toNat + sizeofStack ≤ a.toNat

/-- The addresses given to `stack_create` are as they should be. -/
structure BasesKept (s : State κ) : Prop where
  apart : s.bases.Pairwise Apart
  start : ∀ base ∈ s.bases.head?, base = stackBaseAddr
  above : ∀ base ∈ s.bases, stackBaseAddr ≤ base

def Reserved (s : State κ) : Prop :=
  s.bases = [] ∧ s.stackPos = stackBaseAddr ∨
    ∃ n, s.bases = stackBaseAddr :: List.replicate n 0 ∧ s.stackPos = 0

structure Inv (s : State κ) : Prop where
  spread : Spread s.stacksAt s.created
  reserved : Reserved s

section Steps

variable {s t : State κ} {k : κ} {p : Pc} {a : Act κ}

theorem spread_trade (h : Spread s.stacksAt s.created) {q : Place κ}
    (hpc : t.pc = update s.pc k p) (hq : ∀ j, q ≠ .call j)
    (hperm : (p.items ++ t.stacksAt q).Perm ((s.pc k).items ++ s.stacksAt q))
    (hfree : q = .free ∨ t.freeStacks = s.freeStacks)
    (hout : q = .out ∨ t.out = s.out) (hcreated : t.created = s.created) :
    Spread t.stacksAt t.created := by
  rw [hcreated]
  apply h.move (p := .call k) (q := q) (hq k).symm
  · change ((t.pc k).items ++ _).Perm _
    rw [hpc, update_self]
    exact hperm
  · intro r hrk hrq
    cases r with
    | call j =>
      have hj : j ≠ k := by
        rintro rfl
        exact hrk rfl
      change (t.pc j).items = (s.pc j).items
      rw [hpc, update_of_ne hj]
    | free => exact hfree.resolve_left fun heq => hrq heq.symm
    | out => exact hout.resolve_left fun heq => hrq heq.symm

theorem spread_goto (h : Spread s.stacksAt s.created)
    (hpc : t.pc = update s.pc k p) (hitems : p.items = (s.pc k).items)
    (hfree : t.freeStacks = s.freeStacks) (hout : t.out = s.out)
    (hcreated : t.created = s.created) :
    Spread t.stacksAt t.created := by
  apply spread_trade h (q := .free) hpc nofun _ (.inl rfl) (.inr hout) hcreated
  change (p.items ++ t.freeStacks).Perm ((s.pc k).items ++ s.freeStacks)
  rw [hitems, hfree]

omit [DecidableEq κ] in
theorem Reserved.fetch (h : Reserved s)
    (hbases : t.bases = s.bases ++ [s.stackPos])
    (hpos : t.stackPos = s.stackPos &&& BitVec.ofNat 64 sizeofStack) :
    Reserved t := by
  right
  rcases h with ⟨hnil, hstart⟩ | ⟨n, hlist, hzero⟩
  · refine ⟨0, ?_, ?_⟩
    · rw [hbases, hnil, hstart]
      rfl
    · rw [hpos, hstart]
      decide
  · refine ⟨n + 1, ?_, ?_⟩
    · rw [hbases, hlist, hzero, List.replicate_succ', List.cons_append]
    · rw [hpos, hzero]
      exact BitVec.zero_and

theorem Inv.take (h : Inv s) (hpc : s.pc k = .idle) (nr : Nat) :
    Inv { s.goto k (.filling nr (s.freeStacks.take nr)) with
      freeStacks := s.freeStacks.drop nr } := by
  constructor
  case spread =>
    refine spread_trade h.spread (q := .free) rfl nofun ?_ (.inl rfl) (.inr rfl)
      rfl
    change (s.freeStacks.take nr ++ s.freeStacks.drop nr).Perm
      ((s.pc k).items ++ s.freeStacks)
    rw [List.take_append_drop, hpc]
    exact List.Perm.refl _
  case reserved => exact h.reserved

variable {nr : Nat} {items : List (BitVec 64)}

theorem Inv.fetch (h : Inv s)
    (hpc : s.pc k = .filling nr items) :
    Inv { s.goto k (.creating nr items s.stackPos) with
      stackPos := s.stackPos &&& BitVec.ofNat 64 sizeofStack
      bases := s.bases ++ [s.stackPos] } := by
  constructor
  case spread => exact spread_goto h.spread rfl (by rw [hpc]; rfl) rfl rfl rfl
  case reserved => exact h.reserved.fetch rfl rfl

theorem Inv.create (h : Inv s)
    {base addr : BitVec 64} (hpc : s.pc k = .creating nr items base)
    (hfresh : addr ∉ s.created) :
    Inv { s.goto k (.filling nr (items ++ [addr])) with
      created := addr :: s.created } := by
  constructor
  case spread =>
    apply h.spread.insert (p := .call k) hfresh
    · change ((update s.pc k _ k).items).Perm (addr :: (s.pc k).items)
      rw [update_self, hpc]
      exact List.perm_append_singleton addr items
    · intro r hr
      cases r with
      | call j =>
        have hj : j ≠ k := by
          rintro rfl
          exact hr rfl
        change (update s.pc k _ j).items = (s.pc j).items
        rw [update_of_ne hj]
      | free => rfl
      | out => rfl
  case reserved => exact h.reserved

theorem Inv.fail (h : Inv s) {base : BitVec 64}
    (hpc : s.pc k = .creating nr items base) :
    Inv (s.goto k (.freeing items true)) := by
  constructor
  case spread => exact spread_goto h.spread rfl (by rw [hpc]; rfl) rfl rfl rfl
  case reserved => exact h.reserved

theorem Inv.finish (h : Inv s)
    (hpc : s.pc k = .filling nr items) :
    Inv { s.goto k .idle with out := items ++ s.out } := by
  constructor
  case spread =>
    refine spread_trade h.spread (q := .out) rfl nofun ?_ (.inr rfl) (.inl rfl)
      rfl
    change (items ++ s.out).Perm ((s.pc k).items ++ s.out)
    rw [hpc]
    exact List.Perm.refl _
  case reserved => exact h.reserved

theorem Inv.free (h : Inv s) (hpc : s.pc k = .idle)
    (hnodup : items.Nodup) (hmem : items ⊆ s.out) :
    Inv { s.goto k (.freeing items false) with out := s.out.diff items } := by
  constructor
  case spread =>
    refine spread_trade h.spread (q := .out) rfl nofun ?_ (.inr rfl) (.inl rfl)
      rfl
    change (items ++ s.out.diff items).Perm ((s.pc k).items ++ s.out)
    rw [hpc]
    apply List.subperm_append_diff_self_of_count_le
    intro x hx
    rw [List.count_eq_one_of_mem hnodup hx]
    exact List.count_pos_iff.mpr (hmem hx)
  case reserved => exact h.reserved

theorem Inv.giveBack (h : Inv s) {failed : Bool}
    (hpc : s.pc k = .freeing items failed) :
    Inv { s.goto k .idle with freeStacks := items.reverse ++ s.freeStacks } := by
  constructor
  case spread =>
    refine spread_trade h.spread (q := .free) rfl nofun ?_ (.inl rfl) (.inr rfl)
      rfl
    change (items.reverse ++ s.freeStacks).Perm
      ((s.pc k).items ++ s.freeStacks)
    rw [hpc]
    exact (List.reverse_perm items).append_right _
  case reserved => exact h.reserved

theorem pushStacks_eq {freeStacks after : List (BitVec 64)}
    (hpush : pushStacks freeStacks items = some after) :
    after = items.reverse ++ freeStacks := by
  rw [pushStacks] at hpush
  split_ifs at hpush
  exact (Option.some.inj hpush).symm

theorem Inv.next (h : Inv s) (hnext : Stacks.next s a = some t) : Inv t := by
  cases a with
  | take k nr =>
    obtain ⟨hpc, rfl⟩ := guarded hnext
    exact h.take hpc nr
  | fetch k =>
    simp only [Stacks.next] at hnext
    split at hnext
    · rename_i nr items hpc
      split_ifs at hnext
      cases hnext
      exact h.fetch hpc
    · cases hnext
  | create k mapped =>
    simp only [Stacks.next] at hnext
    split at hnext
    · rename_i nr items base hpc
      cases mapped with
      | some addr =>
        simp only at hnext
        split_ifs at hnext with hold
        cases hnext
        exact h.create hpc (by simpa using hold)
      | none =>
        cases hnext
        exact h.fail hpc
    · cases hnext
  | finish k =>
    simp only [Stacks.next] at hnext
    split at hnext
    · rename_i nr items hpc
      split_ifs at hnext
      cases hnext
      exact h.finish hpc
    · cases hnext
  | free k items =>
    obtain ⟨hguard, rfl⟩ := guarded hnext
    exact h.free hguard.1 hguard.2.1 hguard.2.2
  | giveBack k =>
    simp only [Stacks.next] at hnext
    split at hnext
    · rename_i items failed hpc
      obtain ⟨after, hpush, rfl⟩ := Option.map_eq_some_iff.mp hnext
      rw [pushStacks_eq hpush]
      exact h.giveBack hpc
    · cases hnext

section

omit [DecidableEq κ]

theorem Reserved.kept_iff (h : Reserved s) :
    BasesKept s ↔ s.bases.length ≤ 1 := by
  rcases h with ⟨hnil, -⟩ | ⟨n, hlist, -⟩
  · rw [hnil]
    apply iff_of_true _ (Nat.zero_le 1)
    constructor <;> simp [hnil]
  · rw [hlist]
    cases n with
    | zero =>
      apply iff_of_true _ (by simp)
      constructor <;> simp [hlist]
    | succ n =>
      apply iff_of_false _ (by simp)
      intro hkept
      have habove : stackBaseAddr ≤ 0 := by
        apply hkept.above
        rw [hlist]
        exact List.mem_cons_of_mem _ List.mem_cons_self
      exact absurd habove (by decide)

end

end Steps

end Libut.Runtime.Stacks
