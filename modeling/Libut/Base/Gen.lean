import Libut.Machine.Counter

/-!
Shared generation numbers (`inc/base/gen.h`). A writer and a reader share one
word, which is 0 between generations. Only the writer stores to the word, and
each function reads or stores it at one point, so that a run is a list of
calls, in the order of these points.

The word has 32 bits and the number of the next generation is the last one
plus 1. The generation after number `2 ^ 32 - 1` would be number 0: it never
begins, and from then on the word stays 0.
-/

namespace Libut.Base

open Machine

structure GenNum where
  prevGen : BitVec 32
  deriving DecidableEq, Repr

structure GenState where
  gen : BitVec 32
  writer : GenNum
  reader : GenNum
  deriving DecidableEq, Repr

def genInit : GenNum := ⟨0⟩

def genActive (s : GenState) : GenState :=
  if s.gen = 0 then { s with gen := s.writer.prevGen + 1 } else s

def genInactive (s : GenState) : GenState :=
  if s.gen ≠ 0 then { s with gen := 0, writer := ⟨s.gen⟩ } else s

def genInSameGen (s : GenState) : Bool × GenState :=
  (s.gen != 0 && s.gen == s.reader.prevGen, { s with reader := ⟨s.gen⟩ })

inductive GenCall
  | active
  | inactive
  | read
  deriving DecidableEq, Repr

def GenState.call (s : GenState) : GenCall → GenState
  | .active => genActive s
  | .inactive => genInactive s
  | .read => (genInSameGen s).2

def genRun (calls : List GenCall) : GenState :=
  calls.foldl GenState.call ⟨0, genInit, genInit⟩

/-- The writer is active: its last call was `gen_active`. -/
def WriterActive (calls : List GenCall) : Prop :=
  (calls.filter (· ≠ .read)).getLast? = some .active

/-- The writer is active, it was so at the last call of the reader, and it has
not called `gen_inactive` in between. -/
def SameGeneration (calls : List GenCall) : Prop :=
  WriterActive calls ∧ ∃ earlier between,
    calls = earlier ++ .read :: between ∧ .read ∉ between ∧
      .inactive ∉ between ∧ WriterActive earlier

/-- The generations up to now: the values other than 0 that the word has had
after each call. -/
def pastGenerations (calls : List GenCall) : List (BitVec 32) :=
  (calls.inits.map fun earlier => (genRun earlier).gen).filter (· ≠ 0)

def GenLaw (calls : List GenCall) : GenCall → Prop
  | .active =>
    (genActive (genRun calls)).gen ≠ 0 ∧
      ((genRun calls).gen = 0 → ∀ previous ∈ (pastGenerations calls).getLast?,
        (genActive (genRun calls)).gen ≠ previous)
  | .inactive => True
  | .read => (genInSameGen (genRun calls)).1 = true ↔ SameGeneration calls

def GenLaws (calls : List GenCall) : Prop :=
  ∀ before call after, calls = before ++ call :: after → GenLaw before call

/-- Generations without a bound on their number: how many have begun, whether
one is going on, and which of them the reader saw last, 0 for none. -/
structure GenView where
  begun : Nat
  active : Bool
  seen : Nat

def GenView.call (v : GenView) : GenCall → GenView
  | .active =>
    if v.active then v else { v with begun := v.begun + 1, active := true }
  | .inactive => { v with active := false }
  | .read => { v with seen := if v.active then v.begun else 0 }

def genView (calls : List GenCall) : GenView :=
  calls.foldl GenView.call ⟨0, false, 0⟩

def generations (calls : List GenCall) : Nat := (genView calls).begun

section History

variable {calls : List GenCall} {call : GenCall}

theorem genRun_concat : genRun (calls ++ [call]) = (genRun calls).call call := by
  rw [genRun, List.foldl_append]
  rfl

theorem genView_concat : genView (calls ++ [call]) = (genView calls).call call := by
  rw [genView, List.foldl_append]
  rfl

theorem writerActive_nil : ¬ WriterActive [] := nofun

theorem writerActive_active : WriterActive (calls ++ [.active]) := by
  simp [WriterActive]

theorem not_writerActive_inactive : ¬ WriterActive (calls ++ [.inactive]) := by
  simp [WriterActive]

theorem writerActive_read :
    WriterActive (calls ++ [.read]) ↔ WriterActive calls := by
  simp [WriterActive]

theorem genView_active : (genView calls).active = true ↔ WriterActive calls := by
  induction calls using List.reverseRecOn with
  | nil => simp [genView, writerActive_nil]
  | append_singleton calls call ih =>
    rw [genView_concat]
    cases call with
    | active =>
      apply iff_of_true _ writerActive_active
      by_cases hactive : (genView calls).active <;>
        simp [GenView.call, hactive]
    | inactive =>
      exact iff_of_false (by simp [GenView.call]) not_writerActive_inactive
    | read =>
      rw [writerActive_read, ← ih]
      rfl

theorem sameGeneration_read :
    SameGeneration (calls ++ [.read]) ↔ WriterActive calls := by
  constructor
  · rintro ⟨hactive, -⟩
    exact writerActive_read.mp hactive
  · intro hactive
    refine ⟨writerActive_read.mpr hactive, calls, [], rfl, ?_, ?_, hactive⟩
    · exact List.not_mem_nil
    · exact List.not_mem_nil

theorem not_sameGeneration_inactive : ¬ SameGeneration (calls ++ [.inactive]) :=
  fun h => not_writerActive_inactive h.1

theorem writerActive_append {between : List GenCall}
    (hbetween : .inactive ∉ between) (hactive : WriterActive calls) :
    WriterActive (calls ++ between) := by
  induction between using List.reverseRecOn with
  | nil => rwa [List.append_nil]
  | append_singleton between call ih =>
    rw [List.mem_append, not_or] at hbetween
    rw [← List.append_assoc]
    cases call with
    | active => exact writerActive_active
    | inactive => exact absurd List.mem_cons_self hbetween.2
    | read => exact writerActive_read.mpr (ih hbetween.1)

theorem sameGeneration_active :
    SameGeneration (calls ++ [.active]) ↔ SameGeneration calls := by
  constructor
  · rintro ⟨-, earlier, between, hcalls, hread, hinactive, hactive⟩
    obtain ⟨between, rfl⟩ : ∃ rest, between = rest ++ [.active] := by
      induction between using List.reverseRecOn with
      | nil =>
        have hlast := (List.append_inj' hcalls rfl).2
        cases hlast
      | append_singleton rest call =>
        rw [← List.cons_append, ← List.append_assoc] at hcalls
        obtain rfl := List.singleton_injective (List.append_inj' hcalls rfl).2
        exact ⟨rest, rfl⟩
    rw [← List.cons_append, ← List.append_assoc] at hcalls
    have hold := (List.append_inj' hcalls rfl).1
    rw [List.mem_append, not_or] at hread hinactive
    refine ⟨?_, earlier, between, hold, hread.1, hinactive.1, hactive⟩
    rw [hold, ← List.singleton_append, ← List.append_assoc]
    exact writerActive_append hinactive.1 (writerActive_read.mpr hactive)
  · rintro ⟨-, earlier, between, rfl, hread, hinactive, hactive⟩
    refine ⟨writerActive_active, earlier, between ++ [.active], ?_, ?_, ?_,
      hactive⟩
    · simp
    · simpa using hread
    · simpa using hinactive

end History

section Bounds

variable {calls : List GenCall}

theorem genView_seen_le : (genView calls).seen ≤ (genView calls).begun := by
  induction calls using List.reverseRecOn with
  | nil => exact Nat.le_refl 0
  | append_singleton calls call ih =>
    rw [genView_concat]
    cases call with
    | active =>
      simp only [GenView.call]
      split
      · exact ih
      · exact Nat.le_succ_of_le ih
    | inactive => exact ih
    | read =>
      simp only [GenView.call]
      split
      · exact Nat.le_refl _
      · exact Nat.zero_le _

theorem genView_begun_pos (hactive : (genView calls).active = true) :
    0 < (genView calls).begun := by
  induction calls using List.reverseRecOn with
  | nil => cases hactive
  | append_singleton calls call ih =>
    rw [genView_concat] at hactive ⊢
    cases call with
    | active =>
      simp only [GenView.call]
      split
      · rename_i hold
        exact ih hold
      · exact Nat.succ_pos _
    | inactive => cases hactive
    | read => exact ih hactive

theorem genView_same :
    (genView calls).active = true ∧ (genView calls).seen = (genView calls).begun ↔
      SameGeneration calls := by
  induction calls using List.reverseRecOn with
  | nil => simp [genView, SameGeneration, writerActive_nil]
  | append_singleton calls call ih =>
    rw [genView_concat]
    cases call with
    | active =>
      rw [sameGeneration_active, ← ih, GenView.call]
      split
      · exact Iff.rfl
      · rename_i hidle
        have hseen : (genView calls).seen ≤ (genView calls).begun :=
          genView_seen_le
        constructor
        · rintro ⟨-, heq⟩
          change (genView calls).seen = (genView calls).begun + 1 at heq
          omega
        · exact fun h => absurd h.1 hidle
    | inactive =>
      exact iff_of_false (by simp [GenView.call]) not_sameGeneration_inactive
    | read =>
      rw [sameGeneration_read, ← genView_active, GenView.call]
      constructor
      · exact fun h => h.1
      · intro hactive
        exact ⟨hactive, if_pos hactive⟩

end Bounds

structure Numbered (v : GenView) (s : GenState) : Prop where
  gen : s.gen = if v.active then BitVec.ofNat 32 v.begun else 0
  writer : v.active = false → s.writer.prevGen = BitVec.ofNat 32 v.begun
  reader : s.reader.prevGen = BitVec.ofNat 32 v.seen

section Numbers

variable {calls : List GenCall} {c : GenCall}

theorem generations_concat :
    generations calls ≤ generations (calls ++ [c]) ∧
      generations (calls ++ [c]) ≤ generations calls + 1 := by
  rw [generations, generations, genView_concat]
  cases c with
  | active =>
    simp only [GenView.call]
    split
    · exact ⟨Nat.le_refl _, Nat.le_succ _⟩
    · exact ⟨Nat.le_succ _, Nat.le_refl _⟩
  | inactive | read => exact ⟨Nat.le_refl _, Nat.le_succ _⟩

theorem Numbered.going {v : GenView} {s : GenState} (h : Numbered v s)
    (hactive : v.active = true) : s.gen = BitVec.ofNat 32 v.begun := by
  rw [h.gen, if_pos hactive]

theorem Numbered.idle {v : GenView} {s : GenState} (h : Numbered v s)
    (hidle : v.active = false) : s.gen = 0 := by
  rw [h.gen, hidle]
  rfl

/-- One call keeps the words and the view together, unless it would begin the
generation with number `2 ^ 32`. -/
theorem Numbered.call {v : GenView} {s : GenState} (h : Numbered v s)
    (hpos : v.active = true → 0 < v.begun)
    (hbound : (v.call c).begun < 2 ^ 32) :
    Numbered (v.call c) (s.call c) := by
  cases hactive : v.active with
  | true =>
    have hgen := h.going hactive
    have hlt : v.begun < 2 ^ 32 := by
      cases c <;> simpa [GenView.call, hactive] using hbound
    have hne : s.gen ≠ 0 := by
      rw [hgen]
      exact Counter.ofNat_ne hlt (by decide) (hpos hactive).ne'
    cases c with
    | active =>
      rw [GenView.call, if_pos hactive, GenState.call, genActive, if_neg hne]
      exact h
    | inactive =>
      rw [GenView.call, GenState.call, genInactive, if_pos hne]
      exact ⟨rfl, fun _ => hgen, h.reader⟩
    | read =>
      rw [GenView.call, if_pos hactive]
      exact ⟨h.gen, h.writer, hgen⟩
  | false =>
    have hgen := h.idle hactive
    cases c with
    | active =>
      rw [GenView.call, hactive, GenState.call, genActive, if_pos hgen]
      refine ⟨?_, nofun, h.reader⟩
      change s.writer.prevGen + 1 = BitVec.ofNat 32 (v.begun + 1)
      rw [h.writer hactive, BitVec.ofNat_add]
      rfl
    | inactive =>
      rw [GenView.call, GenState.call, genInactive, if_neg (not_not.mpr hgen)]
      refine ⟨hgen, fun _ => h.writer hactive, h.reader⟩
    | read =>
      rw [GenView.call, hactive]
      exact ⟨hgen, fun _ => h.writer hactive, hgen⟩

theorem numbered (hbound : generations calls < 2 ^ 32) :
    Numbered (genView calls) (genRun calls) := by
  induction calls using List.reverseRecOn with
  | nil => exact ⟨rfl, fun _ => rfl, rfl⟩
  | append_singleton calls c ih =>
    have hold := ih (generations_concat.1.trans_lt hbound)
    rw [generations, genView_concat] at hbound
    rw [genView_concat, genRun_concat]
    exact hold.call genView_begun_pos hbound

theorem generations_mono {rest : List GenCall} :
    generations calls ≤ generations (calls ++ rest) := by
  induction rest using List.reverseRecOn with
  | nil => rw [List.append_nil]
  | append_singleton rest c ih =>
    rw [← List.append_assoc]
    exact ih.trans generations_concat.1

theorem pastGenerations_numbered (hbound : generations calls < 2 ^ 32)
    {g : BitVec 32} (hg : g ∈ pastGenerations calls) :
    ∃ n ≤ generations calls, g = BitVec.ofNat 32 n := by
  rw [pastGenerations, List.mem_filter, List.mem_map] at hg
  obtain ⟨⟨earlier, hprefix, rfl⟩, hne⟩ := hg
  obtain ⟨rest, rfl⟩ := (List.mem_inits _ _).mp hprefix
  have hle : generations earlier ≤ generations (earlier ++ rest) :=
    generations_mono
  have hnum := numbered (hle.trans_lt hbound)
  cases hactive : (genView earlier).active with
  | true => exact ⟨generations earlier, hle, hnum.going hactive⟩
  | false => simp [hnum.idle hactive] at hne

theorem genLaw_of_lt (hbound : generations (calls ++ [c]) < 2 ^ 32) :
    GenLaw calls c := by
  have hlt : generations calls < 2 ^ 32 := generations_concat.1.trans_lt hbound
  have hnum := numbered hlt
  cases c with
  | active =>
    have hactive : (genView (calls ++ [.active])).active = true :=
      genView_active.mpr writerActive_active
    have hafter := (numbered hbound).going hactive
    rw [genRun_concat, GenState.call] at hafter
    constructor
    · rw [hafter]
      exact Counter.ofNat_ne hbound (by decide) (genView_begun_pos hactive).ne'
    · intro hzero previous hprevious
      obtain ⟨n, hn, rfl⟩ :=
        pastGenerations_numbered hlt (List.mem_of_mem_getLast? hprevious)
      have hidle : (genView calls).active ≠ true := by
        intro hold
        exact Counter.ofNat_ne (by decide) hlt (genView_begun_pos hold).ne
          (hzero.symm.trans (hnum.going hold))
      have hbegun : (genView (calls ++ [.active])).begun =
          generations calls + 1 := by
        rw [genView_concat, GenView.call, if_neg hidle]
        rfl
      rw [hafter, hbegun]
      rw [generations, hbegun] at hbound
      exact Counter.ofNat_ne hbound (hn.trans_lt hlt) (by omega)
  | inactive => trivial
  | read =>
    rw [GenLaw, ← genView_same, genInSameGen, Bool.and_eq_true, bne_iff_ne,
      beq_iff_eq, hnum.reader]
    have hseen : (genView calls).seen < 2 ^ 32 :=
      genView_seen_le.trans_lt hlt
    cases hactive : (genView calls).active with
    | true =>
      have hgen := hnum.going hactive
      have hne : (genRun calls).gen ≠ 0 := by
        rw [hgen]
        exact Counter.ofNat_ne hlt (by decide) (genView_begun_pos hactive).ne'
      rw [and_iff_right hne, and_iff_right rfl, hgen]
      constructor
      · intro heq
        by_contra hdiff
        exact Counter.ofNat_ne hseen hlt hdiff heq.symm
      · exact fun heq => by rw [heq]
    | false =>
      exact iff_of_false (fun h => h.1 (hnum.idle hactive)) nofun

/-- The generation with number `2 ^ 32` does not begin: the word stays 0. -/
theorem not_genLaws (hbound : 2 ^ 32 ≤ generations calls) :
    ¬ GenLaws calls := by
  induction calls using List.reverseRecOn with
  | nil => simp [generations, genView] at hbound
  | append_singleton calls c ih =>
    intro hlaws
    by_cases hold : 2 ^ 32 ≤ generations calls
    · apply ih hold
      rintro before call after rfl
      exact hlaws before call (after ++ [c]) (by simp)
    · have hnum := numbered (Nat.lt_of_not_le hold)
      have hlaw := hlaws calls c [] rfl
      rw [generations] at hold
      rw [generations, genView_concat] at hbound
      cases c with
      | active =>
        cases hactive : (genView calls).active with
        | true =>
          rw [GenView.call, if_pos hactive] at hbound
          exact hold hbound
        | false =>
          have hlast : (genView calls).begun = 2 ^ 32 - 1 := by
            rw [GenView.call, hactive] at hbound
            change 2 ^ 32 ≤ (genView calls).begun + 1 at hbound
            omega
          apply hlaw.1
          rw [genActive, if_pos (hnum.idle hactive)]
          change (genRun calls).writer.prevGen + 1 = 0
          rw [hnum.writer hactive, hlast]
          rfl
      | inactive => exact hold hbound
      | read => exact hold hbound

end Numbers

/-- The laws of the generation numbers hold in a run if and only if it begins
fewer than `2 ^ 32` generations. -/
theorem gen_laws_iff (calls : List GenCall) :
    GenLaws calls ↔ generations calls < 2 ^ 32 := by
  constructor
  · intro hlaws
    by_contra hbound
    exact not_genLaws (Nat.le_of_not_lt hbound) hlaws
  · rintro hbound before call after rfl
    apply genLaw_of_lt
    rw [List.append_cons] at hbound
    exact generations_mono.trans_lt hbound

def generationCycles (n : Nat) : List GenCall :=
  (List.replicate n [.active, .inactive]).flatten

theorem genView_cycles (n : Nat) :
    genView (generationCycles n) = ⟨n, false, 0⟩ := by
  induction n with
  | zero => rfl
  | succ n ih =>
    rw [generationCycles, List.replicate_succ', List.flatten_concat, genView,
      List.foldl_append]
    change List.foldl _ (genView (generationCycles n)) _ = _
    rw [ih]
    rfl

/-- After `2 ^ 32 - 1` generations the next call of `gen_active` leaves the
word at 0. -/
theorem generation_never_begins :
    ¬ GenLaws (generationCycles (2 ^ 32 - 1) ++ [.active]) := by
  apply not_genLaws
  rw [generations, genView_concat, genView_cycles]
  decide

end Libut.Base
