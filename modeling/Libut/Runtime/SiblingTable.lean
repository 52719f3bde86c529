import Libut.Base.Bitmap

/-!
The table of neighbouring cpus that `sched_init` builds (`runtime/sched.c`):
for each cpu the hyperthreads of its core, a separator, and the cpus that share
its L2 cache, as far as they fit. `cpu_map` is a run of words, so that a store
past the end of a row is a store to the next record. The first half of
`sched_init`, which sets up the allocation of threads, is left out.
-/

namespace Libut.Runtime

open Base

/-- `RUNTIME_MAX_SIBLINGS`. -/
def maxSiblings : Nat := 7

structure CpuInfo where
  threadSiblingsMask : Bitmap
  l2SiblingsMask : Bitmap

/-- The word of `cpu_map[i].sibling_core[k]`: a record is the word
`recent_kthread` and a row of siblings. -/
def siblingCore (i k : Nat) : Nat :=
  (1 + maxSiblings) * i + 1 + k

/-- The counter `siblings`, the words of `cpu_map` and the places written so
far, as pairs of a cpu and an index in its row. -/
structure Table where
  siblings : Nat
  cpuMap : Nat → Nat
  writes : List (Nat × Nat)

/-- `cpu_map[i].sibling_core[siblings++] = val`. -/
def Table.push (t : Table) (i val : Nat) : Table where
  siblings := t.siblings + 1
  cpuMap := Function.update t.cpuMap (siblingCore i t.siblings) val
  writes := t.writes ++ [(i, t.siblings)]

def threadBody (i j : Nat) (t : Table) : Flow Table :=
  if i = j then .next t
  else if maxSiblings ≤ t.siblings then .bug
  else .next (t.push i (j + 1))

def l2Body (info : CpuInfo) (i j : Nat) (t : Table) : Flow Table :=
  if bitmapTest info.threadSiblingsMask j then .next t
  else
    let t := t.push i (j + 1)
    if maxSiblings ≤ t.siblings then .stop t else .next t

/-- The pass of `sched_init` for cpu `i` after the loop over hyperthreads. -/
def schedInitL2 (cpuCount : Nat) (info : CpuInfo) (i : Nat) (t : Table) :
    Option Table :=
  if maxSiblings ≤ t.siblings then some t
  else
    let t := t.push i 0
    if maxSiblings ≤ t.siblings then some t
    else
      (bitmapForEachSet info.l2SiblingsMask cpuCount (l2Body info i) (i + 1)
          t).bind
        (bitmapForEachSet info.l2SiblingsMask i (l2Body info i) 0)

/-- The pass of `sched_init` for cpu `i`. -/
def schedInitCpu (cpuCount : Nat) (info : CpuInfo) (i : Nat) (t : Table) :
    Option Table :=
  (bitmapForEachSet info.threadSiblingsMask cpuCount (threadBody i) 0
    { t with siblings := 0 }).bind (schedInitL2 cpuCount info i)

/-- The table `sched_init` builds, from what `cpu_map` held before. -/
def schedInit (cpuCount : Nat) (cpuInfoTbl : Nat → CpuInfo)
    (cpuMap : Nat → Nat) : Option Table :=
  (List.range cpuCount).foldlM (fun t i => schedInitCpu cpuCount
    (cpuInfoTbl i) i t) ⟨0, cpuMap, []⟩

section Entries

variable (cpuCount : Nat) (info : CpuInfo) (i : Nat)

def threadSiblings : List Nat :=
  (setBits info.threadSiblingsMask 0 cpuCount).filter (i ≠ ·)

/-- The cpus of `[lo, hi)` that share the L2 cache but not the core. -/
def l2Siblings (lo hi : Nat) : List Nat :=
  (setBits info.l2SiblingsMask lo hi).filter
    (!bitmapTest info.threadSiblingsMask ·)

/-- All that a row should hold: the hyperthreads, a separator and the other
cpus of the cache, from the next one on around to the one before. -/
def rowEntries : List Nat :=
  (threadSiblings cpuCount info i).map (· + 1) ++
    0 :: (l2Siblings info (i + 1) cpuCount ++ l2Siblings info 0 i).map (· + 1)

end Entries

def Table.pushAll (t : Table) (i : Nat) (vals : List Nat) : Table :=
  vals.foldl (fun t val => t.push i val) t

section Push

variable {t : Table} {i : Nat} {vals : List Nat}

theorem siblingCore_inj {i j k l : Nat} (hk : k ≤ maxSiblings)
    (hl : l < maxSiblings) (h : siblingCore i k = siblingCore j l) :
    i = j ∧ k = l := by
  simp only [siblingCore, maxSiblings] at *
  omega

@[simp]
theorem pushAll_siblings :
    (t.pushAll i vals).siblings = t.siblings + vals.length := by
  induction vals generalizing t with
  | nil => rfl
  | cons val vals ih =>
    change ((t.push i val).pushAll i vals).siblings = _
    rw [ih, List.length_cons]
    change t.siblings + 1 + vals.length = _
    omega

theorem pushAll_append (t : Table) (i : Nat) (vals rest : List Nat) :
    t.pushAll i (vals ++ rest) = (t.pushAll i vals).pushAll i rest :=
  List.foldl_append

theorem mem_pushAll_writes {j k : Nat} :
    (j, k) ∈ (t.pushAll i vals).writes ↔
      (j, k) ∈ t.writes ∨
        j = i ∧ t.siblings ≤ k ∧ k < t.siblings + vals.length := by
  induction vals generalizing t with
  | nil =>
    change (j, k) ∈ t.writes ↔ _
    simp only [List.length_nil]
    constructor
    · exact .inl
    · rintro (h | h)
      · exact h
      · omega
  | cons val vals ih =>
    change (j, k) ∈ ((t.push i val).pushAll i vals).writes ↔ _
    rw [ih, List.length_cons]
    simp only [Table.push, List.mem_append, List.mem_singleton, Prod.mk.injEq]
    constructor
    · rintro ((h | h) | h)
      · exact .inl h
      · exact .inr ⟨h.1, by omega⟩
      · exact .inr ⟨h.1, by omega⟩
    · rintro (h | h)
      · exact .inl (.inl h)
      · by_cases hk : k = t.siblings
        · exact .inl (.inr ⟨h.1, hk⟩)
        · exact .inr ⟨h.1, by omega⟩

theorem pushAll_cpuMap (hfits : t.siblings + vals.length ≤ maxSiblings + 1)
    {j k : Nat} (hk : k < maxSiblings) :
    (t.pushAll i vals).cpuMap (siblingCore j k) =
      if j = i ∧ t.siblings ≤ k then
        vals.getD (k - t.siblings) (t.cpuMap (siblingCore j k))
      else t.cpuMap (siblingCore j k) := by
  induction vals generalizing t with
  | nil => simp [Table.pushAll]
  | cons val vals ih =>
    rw [List.length_cons] at hfits
    change ((t.push i val).pushAll i vals).cpuMap (siblingCore j k) = _
    rw [ih (by change t.siblings + 1 + _ ≤ _; omega)]
    by_cases hhere : j = i ∧ k = t.siblings
    · obtain ⟨rfl, rfl⟩ := hhere
      have hnew : (t.push j val).cpuMap (siblingCore j t.siblings) = val :=
        Function.update_self ..
      have hpast : ¬ (j = j ∧ (t.push j val).siblings ≤ t.siblings) := by
        change ¬ (j = j ∧ t.siblings + 1 ≤ t.siblings)
        omega
      rw [if_neg hpast, hnew]
      simp
    · have hold : (t.push i val).cpuMap (siblingCore j k) =
          t.cpuMap (siblingCore j k) := by
        apply Function.update_of_ne
        intro heq
        have hpair := siblingCore_inj (by omega) hk heq.symm
        exact hhere ⟨hpair.1.symm, hpair.2.symm⟩
      rw [hold]
      by_cases hrow : j = i ∧ t.siblings ≤ k
      · have hpast : j = i ∧ (t.push i val).siblings ≤ k := by
          change j = i ∧ t.siblings + 1 ≤ k
          omega
        have hshift : k - t.siblings = k - (t.push i val).siblings + 1 := by
          change _ = k - (t.siblings + 1) + 1
          omega
        rw [if_pos hpast, if_pos hrow, hshift, List.getD_cons_succ]
      · have hpast : ¬ (j = i ∧ (t.push i val).siblings ≤ k) := by
          change ¬ (j = i ∧ t.siblings + 1 ≤ k)
          omega
        rw [if_neg hpast, if_neg hrow]

end Push

section Loops

variable {i : Nat} {t : Table}

theorem foldFlow_threadBody (js : List Nat)
    (hfits : t.siblings + (js.filter (i ≠ ·)).length ≤ maxSiblings) :
    foldFlow (threadBody i) js t =
      some (t.pushAll i ((js.filter (i ≠ ·)).map (· + 1))) := by
  induction js generalizing t with
  | nil => rfl
  | cons j js ih =>
    rw [foldFlow, threadBody]
    by_cases hself : i = j
    · have hskip : (j :: js).filter (i ≠ ·) = js.filter (i ≠ ·) := by
        simp [hself]
      rw [hskip] at hfits ⊢
      rw [if_pos hself]
      exact ih hfits
    · have hkeep : (j :: js).filter (i ≠ ·) = j :: js.filter (i ≠ ·) := by
        simp [hself]
      rw [hkeep, List.length_cons] at hfits
      rw [hkeep, if_neg hself, if_neg (by omega)]
      apply ih
      change t.siblings + 1 + _ ≤ _
      omega

/-- The loops over a cache. The room is tested after each entry, so that one is
written even when there was none to begin with. -/
theorem foldFlow_l2Body (info : CpuInfo) (js : List Nat) :
    foldFlow (l2Body info i) js t =
      some (t.pushAll i (((js.filter
        (!bitmapTest info.threadSiblingsMask ·)).map (· + 1)).take
          (max 1 (maxSiblings - t.siblings)))) := by
  induction js generalizing t with
  | nil => simp [foldFlow, Table.pushAll]
  | cons j js ih =>
    rw [foldFlow, l2Body]
    cases htest : bitmapTest info.threadSiblingsMask j with
    | true =>
      have hskip : (j :: js).filter
          (!bitmapTest info.threadSiblingsMask ·) =
          js.filter (!bitmapTest info.threadSiblingsMask ·) := by
        simp [htest]
      rw [hskip]
      exact ih
    | false =>
      have hkeep : (j :: js).filter
          (!bitmapTest info.threadSiblingsMask ·) =
          j :: js.filter (!bitmapTest info.threadSiblingsMask ·) := by
        simp [htest]
      have hcount : (t.push i (j + 1)).siblings = t.siblings + 1 := rfl
      rw [hkeep, List.map_cons]
      by_cases hfull : maxSiblings ≤ (t.push i (j + 1)).siblings
      · have hone : max 1 (maxSiblings - t.siblings) = 1 := by omega
        simp only [Bool.false_eq_true, if_false, if_pos hfull]
        rw [hone]
        rfl
      · have hroom : max 1 (maxSiblings - t.siblings) =
            max 1 (maxSiblings - (t.push i (j + 1)).siblings) + 1 := by
          omega
        simp only [Bool.false_eq_true, if_false, if_neg hfull]
        rw [hroom, List.take_succ_cons]
        exact ih

end Loops

section Row

variable (cpuCount : Nat) (info : CpuInfo) (i : Nat)

/-- The row of cpu `i` is full before the cpus below it are looked at, and
there is such a cpu. -/
def Overruns : Prop :=
  (threadSiblings cpuCount info i).length + 1 < maxSiblings ∧
    maxSiblings ≤ (threadSiblings cpuCount info i).length + 1 +
      (l2Siblings info (i + 1) cpuCount).length ∧
    l2Siblings info 0 i ≠ []

instance : Decidable (Overruns cpuCount info i) :=
  inferInstanceAs (Decidable (_ ∧ _ ∧ _))

def excess : List Nat :=
  if Overruns cpuCount info i then
    ((l2Siblings info 0 i).take 1).map (· + 1)
  else []

variable {cpuCount info i}

theorem rowEntries_take
    (hthreads : (threadSiblings cpuCount info i).length ≤ maxSiblings) :
    (rowEntries cpuCount info i).take maxSiblings =
      (threadSiblings cpuCount info i).map (· + 1) ++
        (0 :: (l2Siblings info (i + 1) cpuCount ++
          l2Siblings info 0 i).map (· + 1)).take
            (maxSiblings - (threadSiblings cpuCount info i).length) := by
  rw [rowEntries, List.take_append, List.length_map,
    List.take_of_length_le (by rwa [List.length_map])]

/-- The two loops over the cache, where `room` entries fit: the second one
writes an entry even if the first one left no room. -/
theorem take_append_excess {room : Nat} (above below : List Nat)
    (hroom : 0 < room) :
    above.take (max 1 room) ++
        below.take (max 1 (room - (above.take (max 1 room)).length)) =
      (above ++ below).take room ++
        if room ≤ above.length then below.take 1 else [] := by
  rw [Nat.max_eq_right hroom, List.length_take, List.take_append]
  split
  · rename_i hfull
    rw [Nat.min_eq_left hfull, Nat.sub_self, Nat.sub_eq_zero_of_le hfull]
    simp
  · rename_i hpart
    rw [Nat.min_eq_right (by omega), Nat.max_eq_right (by omega),
      List.append_nil]

theorem cacheLoops_eq {t : Table} (hroom : t.siblings < maxSiblings) :
    (bitmapForEachSet info.l2SiblingsMask cpuCount (l2Body info i) (i + 1)
        t).bind (bitmapForEachSet info.l2SiblingsMask i (l2Body info i) 0) =
      some (t.pushAll i (((l2Siblings info (i + 1) cpuCount ++
        l2Siblings info 0 i).map (· + 1)).take (maxSiblings - t.siblings) ++
          if maxSiblings - t.siblings ≤
              (l2Siblings info (i + 1) cpuCount).length then
            ((l2Siblings info 0 i).map (· + 1)).take 1
          else [])) := by
  have hboth := take_append_excess
    ((l2Siblings info (i + 1) cpuCount).map (· + 1))
    ((l2Siblings info 0 i).map (· + 1)) (Nat.sub_pos_of_lt hroom)
  rw [← List.map_append, List.length_map] at hboth
  rw [← hboth, pushAll_append, bitmapForEachSet_eq, foldFlow_l2Body,
    Option.bind_some, bitmapForEachSet_eq, foldFlow_l2Body, pushAll_siblings,
    Nat.sub_add_eq]
  rfl

theorem excess_eq {n : Nat}
    (hcount : n = (threadSiblings cpuCount info i).length)
    (hroom : n + 1 < maxSiblings) :
    excess cpuCount info i =
      if maxSiblings - (n + 1) ≤ (l2Siblings info (i + 1) cpuCount).length then
        ((l2Siblings info 0 i).map (· + 1)).take 1
      else [] := by
  subst hcount
  rw [excess, List.map_take]
  by_cases hempty : l2Siblings info 0 i = []
  · simp [hempty]
  · split
    · rename_i hover
      obtain ⟨-, hfull, -⟩ := hover
      rw [if_pos (by omega)]
    · rename_i hover
      rw [if_neg]
      intro hfull
      exact hover ⟨hroom, by omega, hempty⟩

theorem schedInitL2_eq {t : Table}
    (hcount : t.siblings = (threadSiblings cpuCount info i).length) :
    schedInitL2 cpuCount info i t =
      some (t.pushAll i ((0 :: (l2Siblings info (i + 1) cpuCount ++
        l2Siblings info 0 i).map (· + 1)).take (maxSiblings - t.siblings) ++
          excess cpuCount info i)) := by
  have hpush : (t.push i 0).siblings = t.siblings + 1 := rfl
  rw [schedInitL2]
  by_cases hlast : maxSiblings ≤ t.siblings + 1
  · have hnone : excess cpuCount info i = [] := by
      apply if_neg
      rintro ⟨hlt, -⟩
      omega
    rw [hnone, List.append_nil]
    by_cases hfull : maxSiblings ≤ t.siblings
    · rw [if_pos hfull, Nat.sub_eq_zero_of_le hfull]
      rfl
    · have hroom : maxSiblings - t.siblings = 1 := by omega
      rw [if_neg hfull, hroom]
      exact if_pos hlast
  · have hroom : maxSiblings - t.siblings =
        maxSiblings - (t.siblings + 1) + 1 := by omega
    rw [if_neg (by omega), hroom, List.take_succ_cons, List.cons_append,
      excess_eq hcount (by omega)]
    simp only [hpush, if_neg hlast]
    exact cacheLoops_eq (by omega)

theorem schedInitCpu_eq
    (hthreads : (threadSiblings cpuCount info i).length ≤ maxSiblings)
    (t : Table) :
    schedInitCpu cpuCount info i t =
      some ({ t with siblings := 0 }.pushAll i
        ((rowEntries cpuCount info i).take maxSiblings ++
          excess cpuCount info i)) := by
  rw [schedInitCpu, bitmapForEachSet_eq, foldFlow_threadBody]
  · change schedInitL2 cpuCount info i ({ t with siblings := 0 }.pushAll i
      ((threadSiblings cpuCount info i).map (· + 1))) = _
    rw [schedInitL2_eq (by simp), ← pushAll_append, rowEntries_take hthreads,
      List.append_assoc]
    simp
  · change 0 + (threadSiblings cpuCount info i).length ≤ maxSiblings
    omega

theorem excess_length :
    (excess cpuCount info i).length =
      if Overruns cpuCount info i then 1 else 0 := by
  unfold excess
  split
  · rename_i hover
    have hpos := List.length_pos_iff.mpr hover.2.2
    rw [List.length_map, List.length_take]
    omega
  · rfl

theorem rowEntries_take_length (hover : Overruns cpuCount info i) :
    ((rowEntries cpuCount info i).take maxSiblings).length = maxSiblings := by
  obtain ⟨-, hfull, -⟩ := hover
  rw [List.length_take, rowEntries]
  simp only [List.length_append, List.length_map, List.length_cons]
  omega

variable (cpuCount info i) in
def writtenCount : Nat :=
  ((rowEntries cpuCount info i).take maxSiblings ++
    excess cpuCount info i).length

theorem writtenCount_le : writtenCount cpuCount info i ≤ maxSiblings + 1 := by
  have hrow := List.length_take_le maxSiblings (rowEntries cpuCount info i)
  rw [writtenCount, List.length_append, excess_length]
  split <;> omega

theorem writtenCount_le_iff :
    writtenCount cpuCount info i ≤ maxSiblings ↔
      ¬ Overruns cpuCount info i := by
  have hrow := List.length_take_le maxSiblings (rowEntries cpuCount info i)
  rw [writtenCount, List.length_append, excess_length]
  split
  · rename_i hover
    simp [rowEntries_take_length hover, hover]
  · rename_i hover
    simp [hover]

theorem written_getD {k d : Nat} (hk : k < maxSiblings) :
    ((rowEntries cpuCount info i).take maxSiblings ++
        excess cpuCount info i).getD k d =
      ((rowEntries cpuCount info i).take maxSiblings).getD k d := by
  by_cases hover : Overruns cpuCount info i
  · rw [List.getD_eq_getElem?_getD, List.getElem?_append_left,
      List.getD_eq_getElem?_getD]
    rwa [rowEntries_take_length hover]
  · rw [excess, if_neg hover, List.append_nil]

end Row

section Table

variable {cpuCount : Nat} {cpuInfoTbl : Nat → CpuInfo} {cpuMap : Nat → Nat}

structure BuiltTo (cpuCount : Nat) (cpuInfoTbl : Nat → CpuInfo)
    (cpuMap : Nat → Nat) (n : Nat) (t : Table) : Prop where
  writes : ∀ i k, (i, k) ∈ t.writes ↔
    i < n ∧ k < writtenCount cpuCount (cpuInfoTbl i) i
  rows : ∀ i k, k < maxSiblings → t.cpuMap (siblingCore i k) =
    if i < n then ((rowEntries cpuCount (cpuInfoTbl i) i).take
      maxSiblings).getD k (cpuMap (siblingCore i k))
    else cpuMap (siblingCore i k)

theorem BuiltTo.pass {n : Nat} {t : Table}
    (h : BuiltTo cpuCount cpuInfoTbl cpuMap n t) :
    BuiltTo cpuCount cpuInfoTbl cpuMap (n + 1)
      ({ t with siblings := 0 }.pushAll n
        ((rowEntries cpuCount (cpuInfoTbl n) n).take maxSiblings ++
          excess cpuCount (cpuInfoTbl n) n)) := by
  constructor
  case writes =>
    intro i k
    rw [mem_pushAll_writes]
    change (i, k) ∈ t.writes ∨ i = n ∧ 0 ≤ k ∧
      k < 0 + writtenCount cpuCount (cpuInfoTbl n) n ↔ _
    rw [h.writes i k, Nat.zero_add]
    constructor
    · rintro (hold | ⟨rfl, -, hk⟩)
      · exact ⟨by omega, hold.2⟩
      · exact ⟨by omega, hk⟩
    · rintro ⟨hi, hk⟩
      rcases Nat.lt_succ_iff_lt_or_eq.mp hi with hlt | rfl
      · exact .inl ⟨hlt, hk⟩
      · exact .inr ⟨rfl, Nat.zero_le k, hk⟩
  case rows =>
    intro i k hk
    have hfits : 0 + ((rowEntries cpuCount (cpuInfoTbl n) n).take maxSiblings ++
        excess cpuCount (cpuInfoTbl n) n).length ≤ maxSiblings + 1 := by
      rw [Nat.zero_add]
      exact writtenCount_le
    rw [pushAll_cpuMap hfits hk]
    change (if i = n ∧ 0 ≤ k then _ else t.cpuMap (siblingCore i k)) = _
    rw [h.rows i k hk]
    by_cases hi : i = n
    · subst hi
      rw [if_pos ⟨rfl, Nat.zero_le k⟩, written_getD (by omega),
        if_pos (Nat.lt_succ_self i)]
      rw [if_neg (Nat.lt_irrefl i)]
      rfl
    · rw [if_neg (fun h => hi h.1)]
      by_cases hlt : i < n
      · rw [if_pos hlt, if_pos (by omega)]
      · rw [if_neg hlt, if_neg (by omega)]

theorem schedInit_builtTo (cpuMap : Nat → Nat) (hthreads : ∀ i < cpuCount,
      (threadSiblings cpuCount (cpuInfoTbl i) i).length ≤ maxSiblings) {n : Nat}
    (hn : n ≤ cpuCount) :
    ∃ t, (List.range n).foldlM
        (fun t i => schedInitCpu cpuCount (cpuInfoTbl i) i t)
        ⟨0, cpuMap, []⟩ = some t ∧
      BuiltTo cpuCount cpuInfoTbl cpuMap n t := by
  induction n with
  | zero =>
    refine ⟨⟨0, cpuMap, []⟩, rfl, ?_⟩
    constructor
    case writes => simp
    case rows => simp
  | succ n ih =>
    obtain ⟨t, ht, hbuilt⟩ := ih (by omega)
    refine ⟨_, ?_, hbuilt.pass⟩
    rw [List.range_succ, List.foldlM_append, ht]
    change (schedInitCpu cpuCount (cpuInfoTbl n) n t).bind some = _
    rw [schedInitCpu_eq (hthreads n hn), Option.bind_some]

/-- What `sched_init` is to leave: no store beyond a row, and in each row the
first entries of the list it stands for. -/
structure SiblingsBuilt (cpuCount : Nat) (cpuInfoTbl : Nat → CpuInfo)
    (cpuMap : Nat → Nat) (t : Table) : Prop where
  inRow : ∀ i k, (i, k) ∈ t.writes → k < maxSiblings
  rows : ∀ i < cpuCount, ∀ k < maxSiblings, t.cpuMap (siblingCore i k) =
    ((rowEntries cpuCount (cpuInfoTbl i) i).take maxSiblings).getD k
      (cpuMap (siblingCore i k))

/-- The table is built as it should be, unless some cpu has its row filled by
the cpus above it in its cache, and shares the cache with a cpu below. -/
theorem sibling_table_iff (hthreads : ∀ i < cpuCount,
      (threadSiblings cpuCount (cpuInfoTbl i) i).length ≤ maxSiblings) :
    (∃ t, schedInit cpuCount cpuInfoTbl cpuMap = some t ∧
        SiblingsBuilt cpuCount cpuInfoTbl cpuMap t) ↔
      ∀ i < cpuCount, ¬ Overruns cpuCount (cpuInfoTbl i) i := by
  obtain ⟨t, ht, hbuilt⟩ :=
    schedInit_builtTo cpuMap hthreads (Nat.le_refl cpuCount)
  constructor
  · rintro ⟨t', ht', hgood⟩
    obtain rfl : t' = t := Option.some.inj (ht'.symm.trans ht)
    intro i hi
    apply writtenCount_le_iff.mp
    by_contra hmore
    have hwrite := (hbuilt.writes i maxSiblings).mpr ⟨hi, by omega⟩
    exact absurd (hgood.inRow i maxSiblings hwrite) (Nat.lt_irrefl _)
  · intro hnone
    refine ⟨t, ht, ?_⟩
    constructor
    case inRow =>
      intro i k hwrite
      obtain ⟨hi, hk⟩ := (hbuilt.writes i k).mp hwrite
      have hfits := writtenCount_le_iff.mpr (hnone i hi)
      omega
    case rows =>
      intro i hi k hk
      rw [hbuilt.rows i k hk, if_pos hi]

end Table

/-- Machines without hyperthreads where the cpus share one L2 cache. -/
def clusterInfo (i : Nat) : CpuInfo where
  threadSiblingsMask word := if word = i / 64 then 1#64 <<< (i % 64) else 0
  l2SiblingsMask _ := ~~~0

/-- With four cpus the rows have room for all of them. -/
theorem sibling_table_iff_four :
    (∀ i < 4, (threadSiblings 4 (clusterInfo i) i).length ≤ maxSiblings) ∧
      ∃ t, schedInit 4 clusterInfo (fun _ => 0) = some t ∧
        SiblingsBuilt 4 clusterInfo (fun _ => 0) t := by
  have hthreads : ∀ i < 4,
      (threadSiblings 4 (clusterInfo i) i).length ≤ maxSiblings := by
    decide
  exact ⟨hthreads, (sibling_table_iff hthreads).mpr (by decide)⟩

/-- With eight cpus, the row of cpu 1 is full after the six cpus above it. The
entry of cpu 0 then goes to `recent_kthread` of cpu 2. -/
theorem sibling_row_overrun :
    (∀ i < 8, (threadSiblings 8 (clusterInfo i) i).length ≤ maxSiblings) ∧
      (∃ t, schedInit 8 clusterInfo (fun _ => 0) = some t ∧
        (1, maxSiblings) ∈ t.writes) ∧
      siblingCore 1 maxSiblings = (1 + maxSiblings) * 2 ∧
      ¬ ∃ t, schedInit 8 clusterInfo (fun _ => 0) = some t ∧
        SiblingsBuilt 8 clusterInfo (fun _ => 0) t := by
  have hthreads : ∀ i < 8,
      (threadSiblings 8 (clusterInfo i) i).length ≤ maxSiblings := by
    decide
  obtain ⟨t, ht, hbuilt⟩ :=
    schedInit_builtTo (fun _ => 0) hthreads (Nat.le_refl 8)
  have hwrite : (1, maxSiblings) ∈ t.writes :=
    (hbuilt.writes 1 maxSiblings).mpr (by decide)
  refine ⟨hthreads, ⟨t, ht, hwrite⟩, rfl, ?_⟩
  rintro ⟨t', ht', hgood⟩
  obtain rfl : t' = t := Option.some.inj (ht'.symm.trans ht)
  exact absurd (hgood.inRow 1 maxSiblings hwrite) (Nat.lt_irrefl _)

end Libut.Runtime
