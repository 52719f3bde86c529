import Mathlib.Tactic

/-!
Implicit `d`-ary min-heaps that are reordered by swapping slots. The state is
left abstract: all that is known of it is the key of each slot and that a swap
exchanges two keys, so that a swap may also keep other data (back pointers,
say) in step. `siftUp`, `siftDown` and `heapify` restore the heap order from
the usual local conditions, and whatever every swap preserves they preserve.
-/

namespace Libut.Machine

structure SwapHeap (σ β : Type*) where
  key : σ → Nat → β
  swap : σ → Nat → Nat → σ
  key_swap : ∀ s i j, key (swap s i j) = key s ∘ Equiv.swap i j

namespace SwapHeap

def parent (d i : Nat) : Nat := (i - 1) / d

theorem parent_lt {d i : Nat} (hi : 0 < i) : parent d i < i := by
  have := Nat.div_le_self (i - 1) d
  unfold parent
  omega

theorem parent_eq_iff {d : Nat} (hd : 0 < d) {c p : Nat} (hc : 0 < c) :
    parent d c = p ↔ p * d + 1 ≤ c ∧ c ≤ p * d + d := by
  unfold parent
  rw [Nat.div_eq_iff hd]
  have hsucc : p * d + d = (p + 1) * d := by ring
  omega

variable {σ β : Type*} (H : SwapHeap σ β) (d : Nat)

@[simp]
theorem key_swap_left (s : σ) (i j : Nat) :
    H.key (H.swap s i j) i = H.key s j := by
  rw [H.key_swap, Function.comp_apply, Equiv.swap_apply_left]

@[simp]
theorem key_swap_right (s : σ) (i j : Nat) :
    H.key (H.swap s i j) j = H.key s i := by
  rw [H.key_swap, Function.comp_apply, Equiv.swap_apply_right]

theorem key_swap_of_ne (s : σ) {i j x : Nat} (hi : x ≠ i) (hj : x ≠ j) :
    H.key (H.swap s i j) x = H.key s x := by
  rw [H.key_swap, Function.comp_apply, Equiv.swap_apply_of_ne_of_ne hi hj]

theorem range_map_swap {γ : Type*} (f : Nat → γ) {n a b : Nat} (ha : a < n)
    (hb : b < n) :
    (Multiset.range n).map (f ∘ Equiv.swap a b) = (Multiset.range n).map f := by
  have hperm : (Multiset.range n).map (Equiv.swap a b) = Multiset.range n := by
    refine (Multiset.Nodup.ext ((Multiset.nodup_range n).map
      (Equiv.swap a b).injective) (Multiset.nodup_range n)).mpr fun x => ?_
    rw [Multiset.mem_map, Multiset.mem_range]
    constructor
    · rintro ⟨y, hy, rfl⟩
      rw [Multiset.mem_range] at hy
      rw [Equiv.swap_apply_def]
      split_ifs <;> assumption
    · intro hx
      refine ⟨Equiv.swap a b x, ?_, Equiv.swap_apply_self a b x⟩
      rw [Multiset.mem_range, Equiv.swap_apply_def]
      split_ifs <;> assumption
  rw [← Multiset.map_map, hperm]

variable [LinearOrder β]

/-- The slots whose parent is `m` or later are at or above their parent. -/
def OrderedFrom (m n : Nat) (s : σ) : Prop :=
  ∀ c, 0 < c → c < n → m ≤ parent d c → H.key s (parent d c) ≤ H.key s c

def Ordered (n : Nat) (s : σ) : Prop :=
  ∀ c, 0 < c → c < n → H.key s (parent d c) ≤ H.key s c

/-- The children of slot `i` are at or above the parent of `i`. -/
def Bridged (n i : Nat) (s : σ) : Prop :=
  ∀ c, 0 < c → c < n → parent d c = i → H.key s (parent d i) ≤ H.key s c

/-- Ordered except that slot `i` may be below its parent. -/
def UpOk (n i : Nat) (s : σ) : Prop :=
  (∀ c, 0 < c → c < n → c ≠ i → H.key s (parent d c) ≤ H.key s c) ∧
    (0 < i → H.Bridged d n i s)

/-- Ordered from `m` on except that slot `i` may be above its children. -/
def DownOk (m n i : Nat) (s : σ) : Prop :=
  (∀ c, 0 < c → c < n → m ≤ parent d c → parent d c ≠ i →
    H.key s (parent d c) ≤ H.key s c) ∧
    (0 < i → m ≤ parent d i → H.Bridged d n i s)

/-- Ordered except for slot `i`, whose key is arbitrary. -/
def HoleOk (n i : Nat) (s : σ) : Prop :=
  (∀ c, 0 < c → c < n → c ≠ i → parent d c ≠ i →
    H.key s (parent d c) ≤ H.key s c) ∧
    (0 < i → H.Bridged d n i s)

def siftUp (s : σ) (i : Nat) : σ :=
  if _h : 0 < i ∧ H.key s i < H.key s (parent d i) then
    siftUp (H.swap s i (parent d i)) (parent d i)
  else s
  termination_by i
  decreasing_by exact parent_lt _h.1

/-- Scan `count` slots from `j` on for the smallest key below `w`; the scan
stops at slot `n`. -/
def scan (key : Nat → β) (n : Nat) : Nat → Nat → β → Option Nat → Option Nat
  | 0, _, _, best => best
  | count + 1, j, w, best =>
    if n ≤ j then best
    else if key j < w then scan key n count (j + 1) (key j) (some j)
    else scan key n count (j + 1) w best

def smallestChild (s : σ) (i n : Nat) : Option Nat :=
  scan (H.key s) n d (i * d + 1) (H.key s i) none

theorem scan_spec (key : Nat → β) (n : Nat) (count j : Nat) (w : β)
    (best : Option Nat) :
    (scan key n count j w best = best ∧
      ∀ c, j ≤ c → c < j + count → c < n → w ≤ key c) ∨
    ∃ c, scan key n count j w best = some c ∧ j ≤ c ∧ c < j + count ∧ c < n ∧
      key c < w ∧ ∀ c', j ≤ c' → c' < j + count → c' < n → key c ≤ key c' := by
  induction count generalizing j w best with
  | zero => exact Or.inl ⟨rfl, by omega⟩
  | succ count ih =>
    unfold scan
    split_ifs with hend hlt
    · exact Or.inl ⟨rfl, by omega⟩
    · rcases ih (j + 1) (key j) (some j) with
        ⟨heq, hmin⟩ | ⟨c, heq, hlow, hhigh, hn, hkey, hmin⟩
      · refine Or.inr ⟨j, heq, le_rfl, by omega, by omega, hlt, ?_⟩
        intro c hc hc' hcn
        rcases Nat.eq_or_lt_of_le hc with rfl | hlt'
        · exact le_rfl
        · exact hmin c hlt' (by omega) hcn
      · refine Or.inr ⟨c, heq, by omega, by omega, hn, hkey.trans hlt, ?_⟩
        intro c' hc hc' hcn
        rcases Nat.eq_or_lt_of_le hc with rfl | hlt'
        · exact hkey.le
        · exact hmin c' hlt' (by omega) hcn
    · rw [not_lt] at hlt
      rcases ih (j + 1) w best with
        ⟨heq, hmin⟩ | ⟨c, heq, hlow, hhigh, hn, hkey, hmin⟩
      · refine Or.inl ⟨heq, ?_⟩
        intro c hc hc' hcn
        rcases Nat.eq_or_lt_of_le hc with rfl | hlt'
        · exact hlt
        · exact hmin c hlt' (by omega) hcn
      · refine Or.inr ⟨c, heq, by omega, by omega, hn, hkey, ?_⟩
        intro c' hc hc' hcn
        rcases Nat.eq_or_lt_of_le hc with rfl | hlt'
        · exact hkey.le.trans hlt
        · exact hmin c' hlt' (by omega) hcn

theorem smallestChild_range {s : σ} {i n c : Nat}
    (h : H.smallestChild d s i n = some c) :
    i * d + 1 ≤ c ∧ c < i * d + 1 + d ∧ c < n ∧ H.key s c < H.key s i ∧
      ∀ c', i * d + 1 ≤ c' → c' < i * d + 1 + d → c' < n →
        H.key s c ≤ H.key s c' := by
  rcases scan_spec (H.key s) n d (i * d + 1) (H.key s i) none with
    ⟨heq, _⟩ | ⟨c', heq, hspec⟩
  · rw [smallestChild, heq] at h
    cases h
  · rw [smallestChild, heq] at h
    cases h
    exact hspec

theorem lt_of_smallestChild {s : σ} {i n c : Nat}
    (h : H.smallestChild d s i n = some c) : i < c ∧ c < n := by
  obtain ⟨hlow, hhigh, hn, _⟩ := smallestChild_range H d h
  have hd : 1 ≤ d := by omega
  have := Nat.le_mul_of_pos_right i hd
  exact ⟨by omega, hn⟩

/-- Exchange slot `i` with its smallest child for as long as that child is
smaller. -/
def siftDown (s : σ) (i n : Nat) : σ :=
  match _h : H.smallestChild d s i n with
  | none => s
  | some c => siftDown (H.swap s i c) c n
  termination_by n - i
  decreasing_by
    have := lt_of_smallestChild H d _h
    omega

theorem siftUp_of_not {s : σ} {i : Nat}
    (h : ¬ (0 < i ∧ H.key s i < H.key s (parent d i))) :
    H.siftUp d s i = s := by
  rw [siftUp, dif_neg h]

theorem siftDown_of_none {s : σ} {i n : Nat}
    (h : H.smallestChild d s i n = none) : H.siftDown d s i n = s := by
  rw [siftDown]
  split
  · rfl
  · rename_i c hc
    rw [h] at hc
    cases hc

def heapify (s : σ) (n : Nat) : Nat → σ
  | 0 => H.siftDown d s 0 n
  | i + 1 => heapify (H.siftDown d s (i + 1) n) n i

section Invariant

variable {H d} {P : σ → Prop} {n : Nat}
  (hswap : ∀ s a b, a < n → b < n → P s → P (H.swap s a b))

include hswap

theorem siftUp_invariant {s : σ} {i : Nat} (hi : i < n) (h : P s) :
    P (H.siftUp d s i) := by
  fun_induction siftUp H d s i with
  | case1 s i hlt ih =>
    have hp := (parent_lt (d := d) hlt.1).trans hi
    exact ih hp (hswap s i _ hi hp h)
  | case2 s i hstop => exact h

theorem siftDown_invariant {s : σ} {i : Nat} (hi : i < n) (h : P s) :
    P (H.siftDown d s i n) := by
  fun_induction siftDown H d s i n with
  | case1 s i hnone => exact h
  | case2 s i c hsome ih =>
    have hc := (lt_of_smallestChild H d hsome).2
    exact ih hc (hswap s i c hi hc h)

theorem heapify_invariant {s : σ} {i : Nat} (hi : i < n) (h : P s) :
    P (H.heapify d s n i) := by
  induction i generalizing s with
  | zero => exact siftDown_invariant hswap hi h
  | succ i ih => exact ih (by omega) (siftDown_invariant hswap hi h)

end Invariant

section Children

variable {H d} (hd : 0 < d) {s : σ} {i n : Nat}

include hd

theorem smallestChild_none (h : H.smallestChild d s i n = none) {c : Nat}
    (hc : 0 < c) (hp : parent d c = i) (hn : c < n) :
    H.key s i ≤ H.key s c := by
  have hrange := (parent_eq_iff hd hc).mp hp
  rcases scan_spec (H.key s) n d (i * d + 1) (H.key s i) none with
    ⟨_, hmin⟩ | ⟨c', heq, _⟩
  · exact hmin c hrange.1 (by omega) hn
  · rw [smallestChild, heq] at h
    cases h

theorem smallestChild_some {c : Nat} (h : H.smallestChild d s i n = some c) :
    0 < c ∧ parent d c = i ∧ c < n ∧ H.key s c < H.key s i ∧
      ∀ c', 0 < c' → parent d c' = i → c' < n → H.key s c ≤ H.key s c' := by
  obtain ⟨hlow, hhigh, hn, hkey, hmin⟩ := smallestChild_range H d h
  have hpos : 0 < c := by omega
  refine ⟨hpos, (parent_eq_iff hd hpos).mpr ⟨hlow, by omega⟩, hn, hkey, ?_⟩
  intro c' hc' hp' hn'
  have hrange := (parent_eq_iff hd hc').mp hp'
  exact hmin c' hrange.1 (by omega) hn'

end Children

section Order

variable {H d} {s : σ} {m n i : Nat}

/-- One exchange with the parent moves the fault up by one level. -/
theorem UpOk.swap (h : H.UpOk d n i s) (hi : 0 < i) (hin : i < n)
    (hlt : H.key s i < H.key s (parent d i)) :
    H.UpOk d n (parent d i) (H.swap s i (parent d i)) := by
  obtain ⟨hpairs, hbridge⟩ := h
  have hpi := parent_lt (d := d) hi
  refine ⟨fun c hc hcn hne => ?_, fun hp c hc hcn hpc => ?_⟩
  · by_cases hci : c = i
    · subst hci
      simpa using hlt.le
    · rw [H.key_swap_of_ne s hci hne]
      by_cases hpci : parent d c = i
      · rw [hpci, key_swap_left]
        exact hbridge hi c hc hcn hpci
      · have hle := hpairs c hc hcn hci
        by_cases hpcp : parent d c = parent d i
        · rw [hpcp] at hle ⊢
          rw [key_swap_right]
          exact hlt.le.trans hle
        · rwa [H.key_swap_of_ne s hpci hpcp]
  · have hpp := parent_lt (d := d) hp
    rw [H.key_swap_of_ne s (by omega) (by omega)]
    have habove := hpairs _ hp (by omega) (by omega)
    by_cases hci : c = i
    · rwa [hci, key_swap_left]
    · have hcp := parent_lt (d := d) hc
      rw [H.key_swap_of_ne s hci (by omega)]
      have hle := hpairs c hc hcn hci
      rw [hpc] at hle
      exact habove.trans hle

theorem siftUp_ordered (h : H.UpOk d n i s) (hin : i < n) :
    H.Ordered d n (H.siftUp d s i) := by
  fun_induction siftUp H d s i with
  | case1 s i hlt ih =>
    exact ih (h.swap hlt.1 hin hlt.2) ((parent_lt hlt.1).trans hin)
  | case2 s i hstop =>
    intro c hc hcn
    by_cases hci : c = i
    · subst hci
      exact not_lt.mp fun hlt => hstop ⟨hc, hlt⟩
    · exact h.1 c hc hcn hci

/-- One exchange with the smallest child moves the fault down by one level. -/
theorem DownOk.swap (hd : 0 < d) {c : Nat} (h : H.DownOk d m n i s)
    (hc : H.smallestChild d s i n = some c) :
    H.DownOk d m n c (H.swap s i c) := by
  obtain ⟨hpairs, hbridge⟩ := h
  obtain ⟨hcpos, hpc, hcn, hlt, hmin⟩ := smallestChild_some hd hc
  have hic : i < c := hpc ▸ parent_lt hcpos
  refine ⟨fun x hx hxn hmx hne => ?_, fun _ hmc x hx hxn hpx => ?_⟩
  · by_cases hxc : x = c
    · rw [hxc, hpc, key_swap_left, key_swap_right]
      exact hlt.le
    · by_cases hxi : x = i
      · subst hxi
        have hpx := parent_lt (d := d) hx
        rw [key_swap_left, H.key_swap_of_ne s (by omega) hne]
        exact hbridge hx hmx c hcpos hcn hpc
      · rw [H.key_swap_of_ne s hxi hxc]
        by_cases hpx : parent d x = i
        · rw [hpx, key_swap_left]
          exact hmin x hx hpx hxn
        · rw [H.key_swap_of_ne s hpx hne]
          exact hpairs x hx hxn hmx hpx
  · have hcx : c < x := hpx ▸ parent_lt hx
    rw [hpc] at hmc ⊢
    rw [key_swap_left, H.key_swap_of_ne s (by omega) (by omega)]
    have hle := hpairs x hx hxn (by omega) (by omega)
    rwa [hpx] at hle

theorem siftDown_orderedFrom (hd : 0 < d) (h : H.DownOk d m n i s) :
    H.OrderedFrom d m n (H.siftDown d s i n) := by
  fun_induction siftDown H d s i n with
  | case1 s i hnone =>
    intro c hc hcn hmc
    by_cases hpc : parent d c = i
    · rw [hpc]
      exact smallestChild_none hd hnone hc hpc hcn
    · exact h.1 c hc hcn hmc hpc
  | case2 s i c hsome ih => exact ih (h.swap hd hsome)

theorem OrderedFrom.ordered (h : H.OrderedFrom d 0 n s) : H.Ordered d n s :=
  fun c hc hcn => h c hc hcn (Nat.zero_le _)

theorem heapify_ordered (hd : 0 < d) (h : H.OrderedFrom d (i + 1) n s) :
    H.Ordered d n (H.heapify d s n i) := by
  have hdown : H.DownOk d i n i s :=
    ⟨fun c hc hcn hic hne => h c hc hcn (by omega),
      fun hi hle => absurd (parent_lt (d := d) hi) (not_lt.mpr hle)⟩
  induction i generalizing s with
  | zero => exact (siftDown_orderedFrom hd hdown).ordered
  | succ i ih =>
    have hnext := siftDown_orderedFrom hd hdown
    refine ih hnext ⟨fun c hc hcn hic hne => hnext c hc hcn (by omega), ?_⟩
    exact fun hi hle => absurd (parent_lt (d := d) hi) (not_lt.mpr hle)

theorem orderedFrom_div (s : σ) : H.OrderedFrom d (n / d + 1) n s := by
  intro c hc hcn hle
  have := Nat.div_le_div_right (c := d) (by omega : c - 1 ≤ n)
  unfold parent at hle
  omega

theorem Ordered.holeOk (h : H.Ordered d n s) (hin : i < n) :
    H.HoleOk d n i s := by
  refine ⟨fun c hc hcn _ _ => h c hc hcn, fun hi c hc hcn hpc => ?_⟩
  have hle := h c hc hcn
  rw [hpc] at hle
  exact (h i hi hin).trans hle

theorem HoleOk.congr {t : σ} {n' : Nat} (h : H.HoleOk d n i s) (hn : n' ≤ n)
    (hkey : ∀ x, x ≠ i → H.key t x = H.key s x) : H.HoleOk d n' i t := by
  refine ⟨fun c hc hcn hci hpc => ?_, fun hi c hc hcn hpc => ?_⟩
  · rw [hkey c hci, hkey _ hpc]
    exact h.1 c hc (by omega) hci hpc
  · have hic : i < c := hpc ▸ parent_lt hc
    rw [hkey c hic.ne', hkey _ (parent_lt hi).ne]
    exact h.2 hi c hc (by omega) hpc

/-- An arbitrary key at slot `i` is repaired by sifting up and then down at
`i`: if the first moves anything, the order is restored already. -/
theorem sift_hole_ordered (hd : 0 < d) (h : H.HoleOk d n i s) (hin : i < n) :
    H.Ordered d n (H.siftDown d (H.siftUp d s i) i n) := by
  obtain ⟨hpairs, hbridge⟩ := h
  refine (siftDown_orderedFrom hd ?_).ordered
  by_cases hlt : 0 < i ∧ H.key s i < H.key s (parent d i)
  · have hup : H.UpOk d n i s := by
      refine ⟨fun c hc hcn hci => ?_, hbridge⟩
      by_cases hpc : parent d c = i
      · rw [hpc]
        exact hlt.2.le.trans (hbridge hlt.1 c hc hcn hpc)
      · exact hpairs c hc hcn hci hpc
    have hok := (siftUp_ordered hup hin).holeOk hin
    exact ⟨fun c hc hcn _ _ => siftUp_ordered hup hin c hc hcn,
      fun hi _ => hok.2 hi⟩
  · rw [siftUp_of_not H d hlt]
    refine ⟨fun c hc hcn _ hpc => ?_, fun hi _ => hbridge hi⟩
    by_cases hci : c = i
    · subst hci
      exact not_lt.mp fun h => hlt ⟨hc, h⟩
    · exact hpairs c hc hcn hci hpc

theorem siftDown_root_ordered (hd : 0 < d) (h : H.HoleOk d n 0 s) :
    H.Ordered d n (H.siftDown d s 0 n) :=
  (siftDown_orderedFrom hd ⟨fun c hc hcn _ hpc => h.1 c hc hcn (by omega) hpc,
      fun hi => absurd hi (lt_irrefl 0)⟩).ordered

theorem siftUp_last_ordered (h : H.Ordered d n s) :
    H.Ordered d (n + 1) (H.siftUp d s n) := by
  refine siftUp_ordered ⟨fun c hc hcn hne => h c hc (by omega), ?_⟩
    (Nat.lt_succ_self n)
  intro _ c hc hcn hpc
  have := parent_lt (d := d) hc
  omega

end Order

end SwapHeap

end Libut.Machine
