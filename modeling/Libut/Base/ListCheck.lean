import Libut.Base.ListHead
import Mathlib.Data.Fintype.Card

/-!
The consistency check of lists (`list_check` and `list_check_node` of
`base/list.c`), which `list_debug` runs before every operation in the build with
`CCAN_LIST_DEBUG`. It follows the forward links and compares each with the
backward link. The links may be in any state: in that build `list_del` leaves
NULL in both links of the node it takes out, and a link may lead to memory that
cannot be read. The check still ends, but it does so by a fault where it reads a
node through such a link.
-/

namespace Libut.Base

open Machine

/-- The links as the check finds them. A link is `none` if it is NULL or leads
to none of the nodes, so that reading a node through it faults. -/
structure NodeLinks (ν : Type) where
  next : ν → Option ν
  prev : ν → Option ν

/-- What `list_check_node` ends with: it finds nothing, or it calls `corrupt`
for a node with its number, or it faults. -/
inductive ListCheck (ν : Type)
  | consistent
  | corrupt (node : ν) (count : Nat)
  | fault
  deriving DecidableEq

variable {ν : Type} [DecidableEq ν]

/-- The loop of `list_check_node` at `p` and `n`, `none` after `fuel` passes. -/
def listCheckLoop (L : NodeLinks ν) (node : ν) :
    Nat → ν → Option ν → Nat → Option (ListCheck ν)
  | 0, _, _, _ => none
  -- such an `n` is not `node`, so that the body reads `n->prev`
  | _ + 1, _, none, _ => some .fault
  | fuel + 1, p, some n, count =>
    if n = node then
      if L.prev node ≠ some p then some (.corrupt node 0)
      else some .consistent
    else if L.prev n ≠ some p then some (.corrupt n (count + 1))
    else listCheckLoop L node fuel n (L.next n) (count + 1)

def listCheckNode (L : NodeLinks ν) (node : ν) (fuel : Nat) :
    Option (ListCheck ν) :=
  listCheckLoop L node fuel node (L.next node) 0

section Loop

variable {L : NodeLinks ν} {node p n : ν} {xs : List ν}

/-- `b` follows `a`, by both of their links. -/
def NodeLinks.Follows (L : NodeLinks ν) (a b : ν) : Prop :=
  L.next a = some b ∧ L.prev b = some a

/-- The links from `node` form the circle through `xs`. -/
structure Circle (L : NodeLinks ν) (node : ν) (xs : List ν) : Prop where
  circle : List.IsChain L.Follows ((node :: xs) ++ [node])
  nodup : (node :: xs).Nodup

/-- The nodes `xs` follow each other from `node` on, up to `p`. -/
structure Walked (L : NodeLinks ν) (node : ν) (xs : List ν) (p : ν) : Prop where
  path : List.IsChain L.Follows (node :: xs)
  last : (node :: xs).getLast? = some p
  nodup : (node :: xs).Nodup

omit [DecidableEq ν]

theorem Walked.start (L : NodeLinks ν) (node : ν) : Walked L node [] node :=
  ⟨.singleton node, rfl, List.nodup_singleton node⟩

/-- A node that the walk has passed, other than the first, has its predecessor
on the walk as its backward link. So the walk does not come back to it. -/
theorem Walked.fresh (h : Walked L node xs p) (hne : n ≠ node)
    (hprev : L.prev n = some p) : n ∉ node :: xs := by
  intro hn
  obtain ⟨us, vs, hsplit⟩ := List.append_of_mem hn
  obtain ⟨us, q, rfl⟩ : ∃ us' q, us = us' ++ [q] := by
    rcases List.eq_nil_or_concat us with rfl | ⟨us', q, hus⟩
    · exact absurd (List.cons.inj hsplit).1.symm hne
    · exact ⟨us', q, by rw [hus, List.concat_eq_append]⟩
  rw [List.append_assoc, List.singleton_append] at hsplit
  have hpath := h.path
  have hlast := h.last
  have hnodup := h.nodup
  rw [hsplit] at hpath hlast hnodup
  have hfollows := (List.isChain_append_cons_cons.mp hpath).2.1
  -- `q` would be the last node and yet have `n` after it
  have hqp : q = p := Option.some.inj (hfollows.2.symm.trans hprev)
  rw [List.getLast?_append_of_ne_nil _ (List.cons_ne_nil _ _),
    List.getLast?_cons_cons] at hlast
  have hmem : q ∈ n :: vs := hqp ▸ List.mem_of_getLast? hlast
  have hq := (List.nodup_append.mp hnodup).2.1
  exact (List.nodup_cons.mp hq).1 hmem

theorem Walked.append (h : Walked L node xs p) (hfollows : L.Follows p n) :
    List.IsChain L.Follows ((node :: xs) ++ [n]) := by
  refine List.isChain_append.mpr ⟨h.path, .singleton n, fun x hx y hy => ?_⟩
  rw [h.last] at hx
  cases hx
  cases hy
  exact hfollows

theorem Walked.step (h : Walked L node xs p) (hfollows : L.Follows p n)
    (hne : n ≠ node) : Walked L node (xs ++ [n]) n := by
  refine ⟨h.append hfollows, ?_, ?_⟩
  · rw [← List.cons_append, List.getLast?_concat]
  · rw [← List.cons_append]
    refine h.nodup.append (List.nodup_singleton n) fun x hx hy => ?_
    rw [List.mem_singleton] at hy
    exact h.fresh hne hfollows.2 (hy ▸ hx)

/-- A chain from `node` over `xs` to `n` is a walk over `xs` and one more pair of
links. -/
theorem Walked.of_append
    (hchain : List.IsChain L.Follows ((node :: xs) ++ [n]))
    (hnodup : (node :: xs).Nodup) :
    ∃ p, Walked L node xs p ∧ L.Follows p n := by
  obtain ⟨hpath, -, hlink⟩ := List.isChain_append.mp hchain
  have hlast := List.getLast?_eq_some_getLast (List.cons_ne_nil node xs)
  exact ⟨_, ⟨hpath, hlast, hnodup⟩, hlink _ hlast n rfl⟩

theorem circle_iff_walked :
    Circle L node xs ↔ ∃ p, Walked L node xs p ∧ L.Follows p node :=
  ⟨fun h => Walked.of_append h.circle h.nodup,
    fun ⟨_, h, hfollows⟩ => ⟨h.append hfollows, h.nodup⟩⟩

/-- What the check ends with when it has walked over `xs` to `p` and cannot go on
from there. -/
def ListCheck.EndsAt (L : NodeLinks ν) (node : ν) (xs : List ν) (p : ν) :
    ListCheck ν → Prop
  | .consistent => L.Follows p node
  | .corrupt m count => L.next p = some m ∧ L.prev m ≠ some p ∧
    (m = node ∧ count = 0 ∨ m ≠ node ∧ count = xs.length + 1)
  | .fault => L.next p = none

variable [DecidableEq ν]

/-- The check goes along every walk. -/
theorem listCheckLoop_walked (h : Walked L node xs p) (fuel : Nat) :
    listCheckNode L node (fuel + xs.length) =
      listCheckLoop L node fuel p (L.next p) xs.length := by
  induction xs using List.reverseRecOn generalizing p fuel with
  | nil =>
    cases h.last
    rfl
  | append_singleton xs n ih =>
    obtain ⟨hnodup, -, hfresh⟩ := List.nodup_append.mp
      (List.cons_append ▸ h.nodup : ((node :: xs) ++ [n]).Nodup)
    obtain ⟨q, hq, hnext, hprev⟩ := Walked.of_append h.path hnodup
    have hlast := h.last
    rw [← List.cons_append, List.getLast?_concat] at hlast
    cases hlast
    have hne : n ≠ node := (hfresh node List.mem_cons_self n
      (List.mem_singleton_self n)).symm
    rw [List.length_append, List.length_singleton, Nat.add_comm xs.length,
      ← Nat.add_assoc, ih hq, hnext, listCheckLoop, if_neg hne,
      if_neg (not_not.mpr hprev), Nat.add_comm 1]

theorem listCheckLoop_endsAt {r : ListCheck ν} {fuel : Nat}
    (hend : r.EndsAt L node xs p) :
    listCheckLoop L node (fuel + 1) p (L.next p) xs.length = some r := by
  cases r with
  | consistent =>
    rw [hend.1, listCheckLoop, if_pos rfl, if_neg (not_not.mpr hend.2)]
  | corrupt m count =>
    obtain ⟨hnext, hprev, ⟨rfl, rfl⟩ | ⟨hne, rfl⟩⟩ := hend
    · rw [hnext, listCheckLoop, if_pos rfl, if_pos hprev]
    · rw [hnext, listCheckLoop, if_neg hne, if_pos hprev]
  | fault => rw [show L.next p = none from hend, listCheckLoop]

/-- The walk has no node twice, so the check ends before there are more passes
than nodes. -/
theorem listCheckLoop_ends [Fintype ν] {fuel : Nat} (h : Walked L node xs p)
    (hfuel : Fintype.card ν ≤ fuel + xs.length) :
    ∃ (ys : List ν) (q : ν) (r : ListCheck ν),
      Walked L node ys q ∧ r.EndsAt L node ys q := by
  have hroom : xs.length < Fintype.card ν := h.nodup.length_le_card
  induction fuel generalizing xs p with
  | zero => omega
  | succ fuel ih =>
    cases hnext : L.next p with
    | none => exact ⟨xs, p, .fault, h, hnext⟩
    | some n =>
      by_cases hprev : L.prev n = some p
      · by_cases hback : n = node
        · exact ⟨xs, p, .consistent, h, hback ▸ ⟨hnext, hprev⟩⟩
        · have hstep := h.step ⟨hnext, hprev⟩ hback
          refine ih hstep ?_ hstep.nodup.length_le_card
          rw [List.length_append, List.length_singleton]
          omega
      · rcases eq_or_ne n node with hback | hne
        · exact ⟨xs, p, .corrupt n 0, h, hnext, hprev, .inl ⟨hback, rfl⟩⟩
        · exact ⟨xs, p, .corrupt n _, h, hnext, hprev, .inr ⟨hne, rfl⟩⟩

theorem listCheckNode_of_endsAt [Fintype ν] {r : ListCheck ν}
    (h : Walked L node xs p) (hend : r.EndsAt L node xs p) (more : Nat) :
    listCheckNode L node (Fintype.card ν + more) = some r := by
  have hroom : xs.length < Fintype.card ν := h.nodup.length_le_card
  obtain ⟨fuel, hfuel⟩ : ∃ fuel,
      Fintype.card ν + more = fuel + 1 + xs.length :=
    ⟨Fintype.card ν + more - 1 - xs.length, by omega⟩
  rw [hfuel, listCheckLoop_walked h, listCheckLoop_endsAt hend]

end Loop

section Listed

omit [DecidableEq ν]

/-- The links of lists that are in order: each leads to a node. -/
def nodeLinks (L : Links ν) : NodeLinks ν where
  next n := some (L.next n)
  prev n := some (L.prev n)

theorem circle_nodeLinks {L : Links ν} {node : ν} {xs : List ν} :
    Circle (nodeLinks L) node xs ↔ Listed L node xs := by
  have hfollows : (nodeLinks L).Follows = L.Follows := by
    funext a b
    simp [NodeLinks.Follows, Links.Follows, nodeLinks]
  constructor
  · rintro ⟨hcircle, hnodup⟩
    exact ⟨hfollows ▸ hcircle, hnodup⟩
  · rintro ⟨hcircle, hnodup⟩
    exact ⟨hfollows ▸ hcircle, hnodup⟩

/-- The check passes on every list that the operations keep in order. -/
theorem listCheckNode_listed [DecidableEq ν] [Fintype ν] {L : Links ν}
    {node : ν} {xs : List ν} (h : Listed L node xs) (more : Nat) :
    listCheckNode (nodeLinks L) node (Fintype.card ν + more) =
      some .consistent := by
  obtain ⟨p, hp, hfollows⟩ := circle_iff_walked.mp (circle_nodeLinks.mpr h)
  exact listCheckNode_of_endsAt (r := .consistent) hp hfollows more

end Listed

/-- Whatever the links hold, `list_check_node` ends after at most as many passes
as there are nodes. It returns the node if and only if the links from it form a
circle. It calls `corrupt` for a node if and only if that is the first node whose
backward link is wrong, and it faults if and only if it comes to a link that
leads to no node before it finds a wrong one. -/
theorem list_check_node_right [Fintype ν] (L : NodeLinks ν) (node : ν)
    (more : Nat) :
    ∃ r, listCheckNode L node (Fintype.card ν + more) = some r ∧
      (r = .consistent ↔ ∃ ys, Circle L node ys) ∧
      (∀ m count, r = .corrupt m count ↔ ∃ ys q, Walked L node ys q ∧
        L.next q = some m ∧ L.prev m ≠ some q ∧
        (m = node ∧ count = 0 ∨ m ≠ node ∧ count = ys.length + 1)) ∧
      (r = .fault ↔ ∃ ys q, Walked L node ys q ∧ L.next q = none) := by
  obtain ⟨xs, p, r, hwalk, hend⟩ := listCheckLoop_ends (Walked.start L node)
    (Nat.le_add_right (Fintype.card ν) 0)
  have hrun := listCheckNode_of_endsAt hwalk hend more
  -- the walk is the only one that ends, so each outcome determines it
  have hiff (r' : ListCheck ν) :
      r = r' ↔ ∃ ys q, Walked L node ys q ∧ r'.EndsAt L node ys q := by
    constructor
    · rintro rfl
      exact ⟨xs, p, hwalk, hend⟩
    · rintro ⟨ys, q, hys, hq⟩
      have hrun' := listCheckNode_of_endsAt hys hq more
      exact Option.some.inj (hrun.symm.trans hrun')
  refine ⟨r, hrun, ?_, fun m count => hiff _, hiff _⟩
  simp only [circle_iff_walked]
  exact hiff .consistent

end Libut.Base
