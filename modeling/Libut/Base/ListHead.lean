import Libut.Machine.Links

/-!
The intrusive lists of `inc/base/list.h`. A `list_head` and the `list_node`s of
its elements are nodes of one memory of links, and every operation is the
sequence of stores that the header has. Each operation comes with what it does
to a family of lists: it changes the list it is called on and no other.
-/

namespace Libut.Base

open Function Machine

variable {ν : Type} [DecidableEq ν]

def storeNext (L : Links ν) (a b : ν) : Links ν :=
  { L with next := update L.next a b }

def storePrev (L : Links ν) (a b : ν) : Links ν :=
  { L with prev := update L.prev a b }

def listHeadInit (L : Links ν) (h : ν) : Links ν :=
  storeNext (storePrev L h h) h h

def listAdd (L : Links ν) (h n : ν) : Links ν :=
  let L := storeNext L n (L.next h)
  let L := storePrev L n h
  let L := storePrev L (L.next h) n
  storeNext L h n

def listAddTail (L : Links ν) (h n : ν) : Links ν :=
  let L := storeNext L n h
  let L := storePrev L n (L.prev h)
  let L := storeNext L (L.prev h) n
  storePrev L h n

def listEmpty (L : Links ν) (h : ν) : Bool := L.next h == h

def listDel (L : Links ν) (n : ν) : Links ν :=
  let L := storePrev L (L.next n) (L.prev n)
  storeNext L (L.prev n) (L.next n)

/-- `list_pop`; `none` is the null pointer. -/
def listPop (L : Links ν) (h : ν) : Links ν × Option ν :=
  if listEmpty L h then (L, none) else (listDel L (L.next h), some (L.next h))

/-- `list_append_list` up to the removal of the second head. -/
def sewList (L : Links ν) (dst src : ν) : Links ν :=
  let fromTail := L.prev src
  let toTail := L.prev dst
  let L := storePrev L dst fromTail
  let L := storeNext L fromTail dst
  let L := storeNext L toTail src
  storePrev L src toTail

/-- `list_append_list`, to `dst` from `src`. -/
def listAppendList (L : Links ν) (dst src : ν) : Links ν :=
  let L := sewList L dst src
  let L := listDel L src
  listHeadInit L src

section Stores

variable {L : Links ν} {a b c : ν}

@[simp]
theorem storeNext_next_self : (storeNext L a b).next a = b :=
  update_self ..

@[simp]
theorem storePrev_prev_self : (storePrev L a b).prev a = b :=
  update_self ..

@[simp]
theorem storeNext_prev : (storeNext L a b).prev = L.prev := rfl

@[simp]
theorem storePrev_next : (storePrev L a b).next = L.next := rfl

theorem storeNext_next_of_ne (hne : c ≠ a) :
    (storeNext L a b).next c = L.next c :=
  update_of_ne hne ..

theorem storePrev_prev_of_ne (hne : c ≠ a) :
    (storePrev L a b).prev c = L.prev c :=
  update_of_ne hne ..

end Stores

section Single

variable {L : Links ν} {h n : ν} {xs ys : List ν}

theorem listHeadInit_listed (L : Links ν) (h : ν) :
    Listed (listHeadInit L h) h [] := by
  refine ⟨?_, List.nodup_singleton h⟩
  rw [List.singleton_append, List.isChain_pair]
  refine ⟨storeNext_next_self, ?_⟩
  rw [listHeadInit, storeNext_prev]
  exact storePrev_prev_self

theorem listHeadInit_other {a : ν} (hne : a ≠ h) :
    (listHeadInit L h).next a = L.next a ∧
      (listHeadInit L h).prev a = L.prev a := by
  constructor
  · rw [listHeadInit, storeNext_next_of_ne hne, storePrev_next]
  · rw [listHeadInit, storeNext_prev, storePrev_prev_of_ne hne]

theorem listAdd_eq {y : ν} (hy : L.next h = y) (hne : h ≠ n) :
    listAdd L h n =
      storeNext (storePrev (storePrev (storeNext L n y) n h) y n) h n := by
  simp only [listAdd, storePrev_next, storeNext_next_of_ne hne, hy]

theorem listAdd_listed (hl : Listed L h xs) (hn : n ∉ h :: xs) :
    Listed (listAdd L h n) h (n :: xs) := by
  obtain ⟨y, vs, hy⟩ := List.exists_cons_of_ne_nil
    (List.append_ne_nil_of_right_ne_nil xs (List.cons_ne_nil h []))
  have hne : h ≠ n := fun heq => hn (heq ▸ List.mem_cons_self)
  have hnodup := hl.nodup
  have hback : (y :: vs).Nodup := by
    rw [← hy]
    exact (List.perm_append_singleton h xs).nodup_iff.mpr hnodup
  have hmem : ∀ a ∈ y :: vs, a ∈ h :: xs := fun a ha =>
    (List.perm_append_singleton h xs).mem_iff.mp (hy ▸ ha)
  have hny : n ≠ y := fun heq => hn (heq ▸ hmem y List.mem_cons_self)
  have hcircle := hl.circle
  rw [List.cons_append, hy, List.isChain_cons_cons] at hcircle
  obtain ⟨hhy, hchain⟩ := hcircle
  rw [listAdd_eq hhy.1 hne]
  constructor
  · rw [List.cons_append, List.cons_append, hy, List.isChain_cons_cons,
      List.isChain_cons_cons]
    refine ⟨⟨?_, ?_⟩, ⟨?_, ?_⟩, ?_⟩
    · simp
    · rw [storeNext_prev, storePrev_prev_of_ne hny]
      simp
    · rw [storeNext_next_of_ne hne.symm]
      simp
    · simp
    · apply isChain_follows_congr hchain
      · intro a ha
        rw [← hy, List.dropLast_concat] at ha
        have hah : a ≠ h := by
          rintro rfl
          exact (List.nodup_cons.mp hnodup).1 ha
        have han : a ≠ n := by
          rintro rfl
          exact hn (List.mem_cons_of_mem _ ha)
        rw [storeNext_next_of_ne hah, storePrev_next, storePrev_next,
          storeNext_next_of_ne han]
      · intro b hb
        rw [List.tail_cons] at hb
        have hby : b ≠ y := by
          rintro rfl
          exact (List.nodup_cons.mp hback).1 hb
        have hbn : b ≠ n := by
          rintro rfl
          exact hn (hmem b (List.mem_cons_of_mem _ hb))
        rw [storeNext_prev, storePrev_prev_of_ne hby,
          storePrev_prev_of_ne hbn, storeNext_prev]
  · apply (List.Perm.swap n h xs).nodup_iff.mpr
    exact List.nodup_cons.mpr ⟨hn, hnodup⟩

theorem listAdd_other {a : ν} (hl : Listed L h xs) (hn : n ∉ h :: xs)
    (ha : a ∉ h :: xs) (hne : a ≠ n) :
    (listAdd L h n).next a = L.next a ∧
      (listAdd L h n).prev a = L.prev a := by
  obtain ⟨y, vs, hy⟩ := List.exists_cons_of_ne_nil
    (List.append_ne_nil_of_right_ne_nil xs (List.cons_ne_nil h []))
  have hhn : h ≠ n := fun heq => hn (heq ▸ List.mem_cons_self)
  have hcircle := hl.circle
  rw [List.cons_append, hy, List.isChain_cons_cons] at hcircle
  have hay : a ≠ y := by
    rintro rfl
    apply ha
    exact (List.perm_append_singleton h xs).mem_iff.mp
      (hy ▸ List.mem_cons_self)
  have hah : a ≠ h := fun heq => ha (heq ▸ List.mem_cons_self)
  rw [listAdd_eq hcircle.1.1 hhn]
  constructor
  · rw [storeNext_next_of_ne hah, storePrev_next, storePrev_next,
      storeNext_next_of_ne hne]
  · rw [storeNext_prev, storePrev_prev_of_ne hay, storePrev_prev_of_ne hne,
      storeNext_prev]

theorem listAddTail_eq {z : ν} (hz : L.prev h = z) (hne : h ≠ n) :
    listAddTail L h n =
      storePrev (storeNext (storePrev (storeNext L n h) n z) z n) h n := by
  simp only [listAddTail, storeNext_prev, storePrev_prev_of_ne hne, hz]

omit [DecidableEq ν] in
theorem ne_last {l us : List ν} {a z : ν} (hz : l = us ++ [z])
    (hnodup : l.Nodup) (ha : a ∈ us) : a ≠ z := by
  rintro rfl
  rw [hz] at hnodup
  exact (List.nodup_append.mp hnodup).2.2 a ha a List.mem_cons_self rfl

theorem listAddTail_listed (hl : Listed L h xs) (hn : n ∉ h :: xs) :
    Listed (listAddTail L h n) h (xs ++ [n]) := by
  obtain ⟨us, z, hz, hchain, hzh⟩ := hl.last
  have hne : h ≠ n := fun heq => hn (heq ▸ List.mem_cons_self)
  have hzmem : z ∈ h :: xs := hz ▸ List.mem_append_right us List.mem_cons_self
  have hnz : n ≠ z := fun heq => hn (heq ▸ hzmem)
  have hnodup := hl.nodup
  rw [listAddTail_eq hzh.2 hne]
  constructor
  · have heq : (h :: (xs ++ [n])) ++ [h] = us ++ z :: n :: [h] := by
      rw [← List.cons_append, hz]
      simp
    rw [heq, List.isChain_append_cons_cons, List.isChain_pair]
    refine ⟨?_, ⟨?_, ?_⟩, ⟨?_, ?_⟩⟩
    · apply isChain_follows_congr hchain
      · intro a ha
        rw [List.dropLast_concat] at ha
        have haz := ne_last hz hnodup ha
        have han : a ≠ n := by
          rintro rfl
          exact hn (hz ▸ List.mem_append_left _ ha)
        rw [storePrev_next, storeNext_next_of_ne haz, storePrev_next,
          storeNext_next_of_ne han]
      · intro b hb
        rw [← hz, List.tail_cons] at hb
        have hbh : b ≠ h := by
          rintro rfl
          exact (List.nodup_cons.mp hnodup).1 hb
        have hbn : b ≠ n := by
          rintro rfl
          exact hn (List.mem_cons_of_mem _ hb)
        rw [storePrev_prev_of_ne hbh, storeNext_prev,
          storePrev_prev_of_ne hbn, storeNext_prev]
    · simp
    · rw [storePrev_prev_of_ne hne.symm]
      simp
    · rw [storePrev_next, storeNext_next_of_ne hnz]
      simp
    · simp
  · rw [← List.cons_append]
    apply hnodup.append (List.nodup_singleton n)
    rw [List.disjoint_singleton]
    exact hn

theorem listAddTail_other {a : ν} (hl : Listed L h xs) (hn : n ∉ h :: xs)
    (ha : a ∉ h :: xs) (hne : a ≠ n) :
    (listAddTail L h n).next a = L.next a ∧
      (listAddTail L h n).prev a = L.prev a := by
  obtain ⟨us, z, hz, _, hzh⟩ := hl.last
  have hhn : h ≠ n := fun heq => hn (heq ▸ List.mem_cons_self)
  have haz : a ≠ z := by
    rintro rfl
    exact ha (hz ▸ List.mem_append_right us List.mem_cons_self)
  have hah : a ≠ h := fun heq => ha (heq ▸ List.mem_cons_self)
  rw [listAddTail_eq hzh.2 hhn]
  constructor
  · rw [storePrev_next, storeNext_next_of_ne haz, storePrev_next,
      storeNext_next_of_ne hne]
  · rw [storePrev_prev_of_ne hah, storeNext_prev, storePrev_prev_of_ne hne,
      storeNext_prev]

theorem listDel_eq {z y : ν} (hzn : L.Follows z n) (hny : L.Follows n y)
    (hne : n ≠ y) : listDel L n = storeNext (storePrev L y z) z y := by
  simp only [listDel, hny.1, hzn.2, storePrev_prev_of_ne hne, storePrev_next]

theorem listDel_listed (hl : Listed L h (xs ++ n :: ys)) :
    Listed (listDel L n) h (xs ++ ys) := by
  obtain ⟨us, z, y, vs, hz, hy, hbefore, hzn, hny, hafter⟩ := hl.split
  have hnodup := hl.nodup
  rw [← List.cons_append, List.nodup_append] at hnodup
  obtain ⟨hxs, hys, hdisj⟩ := hnodup
  have hne : n ≠ y := by
    rintro rfl
    have hmem : n ∈ ys ++ [h] := hy ▸ List.mem_cons_self
    rcases List.mem_append.mp hmem with hmem | hmem
    · exact (List.nodup_cons.mp hys).1 hmem
    · rw [List.mem_singleton] at hmem
      exact hdisj h List.mem_cons_self n List.mem_cons_self hmem.symm
  have hzmem : z ∈ h :: xs := hz ▸ List.mem_append_right us List.mem_cons_self
  have hdrop : (y :: vs).dropLast = ys := by rw [← hy, List.dropLast_concat]
  rw [listDel_eq hzn hny hne]
  constructor
  · have heq : (h :: (xs ++ ys)) ++ [h] = us ++ z :: y :: vs := by
      rw [← List.cons_append, hz, List.append_assoc, hy]
      simp
    rw [heq, List.isChain_append_cons_cons]
    refine ⟨?_, ⟨?_, ?_⟩, ?_⟩
    · apply isChain_follows_congr hbefore
      · intro a ha
        rw [List.dropLast_concat] at ha
        have haz := ne_last hz hxs ha
        rw [storeNext_next_of_ne haz, storePrev_next]
      · intro b hb
        rw [← hz, List.tail_cons] at hb
        have hby : b ≠ y := by
          rintro rfl
          have hmem : b ∈ ys ++ [h] := hy ▸ List.mem_cons_self
          rcases List.mem_append.mp hmem with hmem | hmem
          · exact hdisj b (List.mem_cons_of_mem _ hb) b
              (List.mem_cons_of_mem _ hmem) rfl
          · rw [List.mem_singleton] at hmem
            exact (List.nodup_cons.mp hxs).1 (hmem ▸ hb)
        rw [storeNext_prev, storePrev_prev_of_ne hby]
    · simp
    · simp
    · apply isChain_follows_congr hafter
      · intro a ha
        rw [hdrop] at ha
        have haz : a ≠ z := by
          rintro rfl
          exact hdisj a hzmem a (List.mem_cons_of_mem _ ha) rfl
        rw [storeNext_next_of_ne haz, storePrev_next]
      · intro b hb
        have hby : b ≠ y := by
          rintro rfl
          have hcircle : (ys ++ [h]).Nodup := by
            apply (List.nodup_cons.mp hys).2.append (List.nodup_singleton h)
            rw [List.disjoint_singleton]
            exact fun hmem => hdisj h List.mem_cons_self h
              (List.mem_cons_of_mem _ hmem) rfl
          rw [hy] at hcircle
          exact (List.nodup_cons.mp hcircle).1 hb
        rw [storeNext_prev, storePrev_prev_of_ne hby]
  · rw [← List.cons_append, List.nodup_append]
    refine ⟨hxs, (List.nodup_cons.mp hys).2, fun a ha b hb => ?_⟩
    exact hdisj a ha b (List.mem_cons_of_mem _ hb)

theorem listDel_other {a : ν} (hl : Listed L h (xs ++ n :: ys))
    (ha : a ∉ h :: (xs ++ n :: ys)) :
    (listDel L n).next a = L.next a ∧ (listDel L n).prev a = L.prev a := by
  obtain ⟨us, z, y, vs, hz, hy, _, hzn, hny, _⟩ := hl.split
  have haz : a ≠ z := by
    rintro rfl
    have hmem : a ∈ h :: xs := hz ▸ List.mem_append_right us List.mem_cons_self
    apply ha
    rw [← List.cons_append]
    exact List.mem_append_left _ hmem
  have hmem : y ∈ ys ++ [h] := hy ▸ List.mem_cons_self
  have hay : a ≠ y := by
    rintro rfl
    apply ha
    rcases List.mem_append.mp hmem with hmem | hmem
    · simp [hmem]
    · rw [List.mem_singleton] at hmem
      simp [hmem]
  have hyn : n ≠ y := by
    rintro rfl
    have hnodup := hl.nodup
    rcases List.mem_append.mp hmem with hmem | hmem
    · simp [List.nodup_append, hmem] at hnodup
    · rw [List.mem_singleton] at hmem
      simp [hmem] at hnodup
  rw [listDel_eq hzn hny hyn]
  constructor
  · rw [storeNext_next_of_ne haz, storePrev_next]
  · rw [storeNext_prev, storePrev_prev_of_ne hay]

theorem sewList_listed {src : ν} (hl : Listed L h xs) (hsrc : Listed L src ys)
    (hdisj : List.Disjoint (h :: xs) (src :: ys)) :
    Listed (sewList L h src) h (xs ++ src :: ys) := by
  obtain ⟨us, z, hz, hchain, hzh⟩ := hl.last
  obtain ⟨vs, w, hw, hchain', hws⟩ := hsrc.last
  have hzmem : z ∈ h :: xs := hz ▸ List.mem_append_right us List.mem_cons_self
  have hwmem : w ∈ src :: ys :=
    hw ▸ List.mem_append_right vs List.mem_cons_self
  have hwz : w ≠ z := fun heq => hdisj hzmem (heq ▸ hwmem)
  have hhs : h ≠ src := fun heq =>
    hdisj List.mem_cons_self (heq ▸ List.mem_cons_self)
  have hnodup := hl.nodup
  have hnodup' := hsrc.nodup
  simp only [sewList, hzh.2, hws.2]
  constructor
  · have heq : (h :: (xs ++ src :: ys)) ++ [h] =
        us ++ z :: src :: (ys ++ [h]) := by
      rw [← List.cons_append, hz]
      simp
    rw [heq, List.isChain_append_cons_cons, ← List.cons_append, hw,
      List.append_assoc, List.singleton_append, List.isChain_append_cons_cons]
    refine ⟨?_, ⟨?_, ?_⟩, ?_, ⟨?_, ?_⟩, .singleton h⟩
    · apply isChain_follows_congr hchain
      · intro a ha
        rw [List.dropLast_concat] at ha
        have haz := ne_last hz hnodup ha
        have haw : a ≠ w := by
          rintro rfl
          exact hdisj (hz ▸ List.mem_append_left _ ha) hwmem
        rw [storePrev_next, storeNext_next_of_ne haz, storeNext_next_of_ne haw,
          storePrev_next]
      · intro b hb
        rw [← hz, List.tail_cons] at hb
        have hbs : b ≠ src := by
          rintro rfl
          exact hdisj (List.mem_cons_of_mem _ hb) List.mem_cons_self
        have hbh : b ≠ h := by
          rintro rfl
          exact (List.nodup_cons.mp hnodup).1 hb
        rw [storePrev_prev_of_ne hbs, storeNext_prev, storeNext_prev,
          storePrev_prev_of_ne hbh]
    · simp
    · simp
    · apply isChain_follows_congr hchain'
      · intro a ha
        rw [List.dropLast_concat] at ha
        have haw := ne_last hw hnodup' ha
        have haz : a ≠ z := by
          rintro rfl
          exact hdisj hzmem (hw ▸ List.mem_append_left _ ha)
        rw [storePrev_next, storeNext_next_of_ne haz, storeNext_next_of_ne haw,
          storePrev_next]
      · intro b hb
        rw [← hw, List.tail_cons] at hb
        have hbh : b ≠ h := by
          rintro rfl
          exact hdisj List.mem_cons_self (List.mem_cons_of_mem _ hb)
        have hbs : b ≠ src := by
          rintro rfl
          exact (List.nodup_cons.mp hnodup').1 hb
        rw [storePrev_prev_of_ne hbs, storeNext_prev, storeNext_prev,
          storePrev_prev_of_ne hbh]
    · rw [storePrev_next, storeNext_next_of_ne hwz]
      simp
    · rw [storePrev_prev_of_ne hhs]
      simp
  · rw [← List.cons_append]
    exact hnodup.append hnodup' hdisj

theorem sewList_other {src a : ν} (hl : Listed L h xs) (hsrc : Listed L src ys)
    (ha : a ∉ h :: xs) (ha' : a ∉ src :: ys) :
    (sewList L h src).next a = L.next a ∧
      (sewList L h src).prev a = L.prev a := by
  obtain ⟨us, z, hz, _, hzh⟩ := hl.last
  obtain ⟨vs, w, hw, _, hws⟩ := hsrc.last
  have haz : a ≠ z := by
    rintro rfl
    exact ha (hz ▸ List.mem_append_right us List.mem_cons_self)
  have haw : a ≠ w := by
    rintro rfl
    exact ha' (hw ▸ List.mem_append_right vs List.mem_cons_self)
  have hah : a ≠ h := fun heq => ha (heq ▸ List.mem_cons_self)
  have has : a ≠ src := fun heq => ha' (heq ▸ List.mem_cons_self)
  simp only [sewList, hzh.2, hws.2]
  constructor
  · rw [storePrev_next, storeNext_next_of_ne haz, storeNext_next_of_ne haw,
      storePrev_next]
  · rw [storePrev_prev_of_ne has, storeNext_prev, storeNext_prev,
      storePrev_prev_of_ne hah]

end Single

section Family

variable {L : Links ν} {m : ν → Option (List ν)} {h n : ν} {xs ys : List ν}

section

variable (hl : Lists L m)
include hl

theorem scribble_lists (hn : Unlisted m n) (a b : ν) :
    Lists (storePrev (storeNext L n a) n b) m := by
  apply hl.congr
  intro h xs hxs c hc
  have hne : c ≠ n := by
    rintro rfl
    exact hn h xs hxs hc
  rw [storePrev_next, storeNext_next_of_ne hne, storePrev_prev_of_ne hne,
    storeNext_prev]
  exact ⟨rfl, rfl⟩

theorem listHeadInit_lists (hh : Unlisted m h) :
    Lists (listHeadInit L h) (update m h (some [])) := by
  apply hl.update (listHeadInit_listed L h)
  intro h' ys _ hys
  have hnot := hh h' ys hys
  constructor
  · rw [List.singleton_disjoint]
    exact hnot
  · intro a ha
    apply listHeadInit_other
    rintro rfl
    exact hnot ha

theorem listAdd_lists (hxs : m h = some xs) (hn : Unlisted m n) :
    Lists (listAdd L h n) (update m h (some (n :: xs))) := by
  have hlisted := hl.listed h xs hxs
  have hfresh := hn h xs hxs
  apply hl.update (listAdd_listed hlisted hfresh)
  intro h' ys hne hys
  have happart := hl.apart h h' xs ys hne.symm hxs hys
  have hnot := hn h' ys hys
  constructor
  · intro a ha hmem
    have hcases : a = n ∨ a ∈ h :: xs := by
      simp only [List.mem_cons] at ha ⊢
      tauto
    rcases hcases with rfl | hold
    · exact hnot hmem
    · exact happart hold hmem
  · intro a ha
    apply listAdd_other hlisted hfresh
    · exact fun hmem => happart hmem ha
    · rintro rfl
      exact hnot ha

theorem listAddTail_lists (hxs : m h = some xs) (hn : Unlisted m n) :
    Lists (listAddTail L h n) (update m h (some (xs ++ [n]))) := by
  have hlisted := hl.listed h xs hxs
  have hfresh := hn h xs hxs
  apply hl.update (listAddTail_listed hlisted hfresh)
  intro h' ys hne hys
  have happart := hl.apart h h' xs ys hne.symm hxs hys
  have hnot := hn h' ys hys
  constructor
  · rw [← List.cons_append, List.disjoint_append_left]
    refine ⟨happart, ?_⟩
    rw [List.singleton_disjoint]
    exact hnot
  · intro a ha
    apply listAddTail_other hlisted hfresh
    · exact fun hmem => happart hmem ha
    · rintro rfl
      exact hnot ha

theorem listDel_lists (hxs : m h = some (xs ++ n :: ys)) :
    Lists (listDel L n) (update m h (some (xs ++ ys))) := by
  have hlisted := hl.listed h _ hxs
  apply hl.update (listDel_listed hlisted)
  intro h' zs hne hzs
  have happart := hl.apart h h' _ zs hne.symm hxs hzs
  constructor
  · intro a ha
    apply happart
    simp only [List.mem_cons, List.mem_append] at ha ⊢
    tauto
  · exact fun a ha => listDel_other hlisted fun hmem => happart hmem ha

theorem listEmpty_iff (hxs : m h = some xs) :
    listEmpty L h = true ↔ xs = [] := by
  rw [listEmpty, beq_iff_eq]
  exact (hl.listed h xs hxs).next_eq_iff

theorem listPop_nil (hxs : m h = some []) : listPop L h = (L, none) := by
  rw [listPop, if_pos ((listEmpty_iff hl hxs).mpr rfl)]

theorem listPop_cons (hxs : m h = some (n :: xs)) :
    listPop L h = (listDel L n, some n) ∧
      Lists (listDel L n) (update m h (some xs)) := by
  constructor
  · have hne : ¬ listEmpty L h = true := by
      rw [listEmpty_iff hl hxs]
      exact List.cons_ne_nil n xs
    rw [listPop, if_neg hne, (hl.listed h _ hxs).next_cons]
  · rw [← List.nil_append (n :: xs)] at hxs
    exact listDel_lists hl hxs

theorem listAppendList_lists {src : ν} (hne : h ≠ src) (hxs : m h = some xs)
    (hys : m src = some ys) :
    Lists (listAppendList L h src)
      (update (update m h (some (xs ++ ys))) src (some [])) := by
  have hlisted := hl.listed h xs hxs
  have hlisted' := hl.listed src ys hys
  have hdisj := hl.apart h src xs ys hne hxs hys
  -- both circles become one, with the head of the second among its nodes
  have hsewn : Lists (sewList L h src) (update
      (update m src none) h (some (xs ++ src :: ys))) := by
    apply (hl.forget src).update (sewList_listed hlisted hlisted' hdisj)
    intro g zs hgh hzs
    have hgs : g ≠ src := by
      rintro rfl
      rw [update_self] at hzs
      cases hzs
    rw [update_of_ne hgs] at hzs
    have happart := hl.apart h g xs zs hgh.symm hxs hzs
    have happart' := hl.apart src g ys zs hgs.symm hys hzs
    constructor
    · rw [← List.cons_append, List.disjoint_append_left]
      exact ⟨happart, happart'⟩
    · intro a ha
      exact sewList_other hlisted hlisted' (fun hmem => happart hmem ha)
        fun hmem => happart' hmem ha
  have hdel := listDel_lists hsewn (update_self ..)
  rw [update_idem] at hdel
  have hfree : Unlisted (update (update m src none) h
      (some (xs ++ ys))) src := by
    intro g zs hzs hmem
    rcases eq_or_ne g h with rfl | hgh
    · rw [update_self] at hzs
      cases hzs
      rw [← List.cons_append, List.mem_append] at hmem
      rcases hmem with hmem | hmem
      · exact hdisj hmem List.mem_cons_self
      · exact (List.nodup_cons.mp hlisted'.nodup).1 hmem
    · rw [update_of_ne hgh] at hzs
      have hgs : g ≠ src := by
        rintro rfl
        rw [update_self] at hzs
        cases hzs
      rw [update_of_ne hgs] at hzs
      exact hl.apart src g ys zs hgs.symm hys hzs List.mem_cons_self hmem
  have hinit := listHeadInit_lists hdel hfree
  rwa [update_comm hne, update_idem, update_comm hne.symm] at hinit

end

end Family

end Libut.Base
