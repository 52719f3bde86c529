import Mathlib.Data.List.Nodup
import Mathlib.Logic.Function.Basic
import Mathlib.Tactic

/-!
Null-terminated lists whose links are words of memory: each element says which
one comes next, and the last says that none does. The links are a function on
all of memory, of which a list reads only the words of its own elements.
-/

namespace Libut.Machine

variable {α : Type*}

/-- Following `next` from `p` visits `l` and ends. -/
def Chain (next : α → Option α) : Option α → List α → Prop
  | p, [] => p = none
  | p, a :: rest => p = some a ∧ Chain next (next a) rest

variable {next next' : α → Option α} {p : Option α} {a : α} {l : List α}

theorem Chain.nil : Chain next none [] := rfl

theorem Chain.congr (h : Chain next p l) (hsame : ∀ a ∈ l, next' a = next a) :
    Chain next' p l := by
  induction l generalizing p with
  | nil => exact h
  | cons a rest ih =>
    refine ⟨h.1, ?_⟩
    rw [hsame a List.mem_cons_self]
    exact ih h.2 fun b hb => hsame b (List.mem_cons_of_mem a hb)

theorem Chain.store [DecidableEq α] {v : Option α} (h : Chain next p l)
    (ha : a ∉ l) : Chain (Function.update next a v) p l := by
  apply h.congr
  intro b hb
  rw [Function.update_of_ne]
  rintro rfl
  exact ha hb

theorem Chain.push [DecidableEq α] (h : Chain next p l) (ha : a ∉ l) :
    Chain (Function.update next a p) (some a) (a :: l) := by
  refine ⟨rfl, ?_⟩
  rw [Function.update_self]
  exact h.store ha

theorem Chain.eq_nil (h : Chain next none l) : l = [] := by
  cases l with
  | nil => rfl
  | cons a rest => cases h.1

theorem Chain.pop (h : Chain next (some a) l) :
    ∃ rest, l = a :: rest ∧ Chain next (next a) rest := by
  cases l with
  | nil => cases h
  | cons b rest =>
    obtain ⟨heq, hrest⟩ := h
    cases heq
    exact ⟨rest, rfl, hrest⟩

theorem Chain.ne_none (h : Chain next p l) (hl : l ≠ []) : p ≠ none := by
  rintro rfl
  exact hl h.eq_nil

end Libut.Machine
