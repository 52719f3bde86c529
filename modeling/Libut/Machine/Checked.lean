import Mathlib.Tactic

/-!
Programs that may stop at a failed check. `Meets tolerated r post` says that a
run either ends in a state with `post` or stops at a failure that is
`tolerated`; with nothing tolerated it says that the run succeeds. One rule for
each way programs are put together carries a specification through.
-/

namespace Libut.Machine

variable {ε α β : Type} {tolerated : ε → Prop} {post : α → Prop}

def Meets (tolerated : ε → Prop) (r : Except ε α) (post : α → Prop) : Prop :=
  match r with
  | .ok a => post a
  | .error e => tolerated e

def anyFailure : ε → Prop := fun _ => True

@[simp]
theorem meets_ok {a : α} : Meets tolerated (.ok a : Except ε α) post ↔ post a :=
  Iff.rfl

variable {r : Except ε α} {post' : β → Prop}

theorem toOption_eq_some {a : α} : r.toOption = some a ↔ r = .ok a := by
  cases r with
  | error e => simp [Except.toOption]
  | ok b => simp [Except.toOption]

/-- The rule for one program after another, where the second may rest on how
the first one ended. -/
theorem Meets.bind_ok {f : α → Except ε β} (hr : Meets tolerated r post)
    (hf : ∀ a, r = .ok a → post a → Meets tolerated (f a) post') :
    Meets tolerated (r >>= f) post' := by
  cases r with
  | error e => exact hr
  | ok a => exact hf a rfl hr

theorem Meets.bind {f : α → Except ε β} (hr : Meets tolerated r post)
    (hf : ∀ a, post a → Meets tolerated (f a) post') :
    Meets tolerated (r >>= f) post' :=
  hr.bind_ok fun a _ => hf a

theorem Meets.map {f : α → β} (hr : Meets tolerated r fun a => post' (f a)) :
    Meets tolerated (r.map f) post' := by
  cases r with
  | error e => exact hr
  | ok a => exact hr

section

variable (hr : Meets tolerated r post)
include hr

theorem Meets.and {post' : α → Prop} (hr' : Meets anyFailure r post') :
    Meets tolerated r fun a => post a ∧ post' a := by
  cases r with
  | error e => exact hr
  | ok a => exact ⟨hr, hr'⟩

theorem Meets.imp {post' : α → Prop} (himp : ∀ a, post a → post' a) :
    Meets tolerated r post' := by
  cases r with
  | error e => exact hr
  | ok a => exact himp a hr

theorem Meets.weaken {tolerated' : ε → Prop}
    (himp : ∀ e, tolerated e → tolerated' e) : Meets tolerated' r post := by
  cases r with
  | error e => exact himp e hr
  | ok a => exact hr

theorem Meets.succeeds : Meets anyFailure r post :=
  hr.weaken fun _ _ => trivial

end

theorem meets_anyFailure :
    Meets anyFailure r post ↔ ∀ a, r = .ok a → post a := by
  cases r with
  | error e => exact iff_of_true trivial nofun
  | ok a => simp

theorem Meets.of_ok {a : α} (hr : Meets tolerated r post) (ha : r = .ok a) :
    post a := by
  rw [ha] at hr
  exact hr

theorem Meets.of_error {e : ε} (hr : Meets tolerated r post)
    (he : r = .error e) : tolerated e := by
  rw [he] at hr
  exact hr

/-- The rule for a loop over a list: an invariant of the state that every pass
keeps, each pass for an element of the list. -/
theorem Meets.foldlM {f : α → β → Except ε α} {l : List β} {a : α} (ha : post a)
    (hf : ∀ a, ∀ b ∈ l, post a → Meets tolerated (f a b) post) :
    Meets tolerated (l.foldlM f a) post := by
  induction l generalizing a with
  | nil => exact ha
  | cons b rest ih =>
    rw [List.foldlM_cons]
    refine (hf a b List.mem_cons_self ha).bind fun a' ha' => ?_
    exact ih ha' fun a'' b' hb' => hf a'' b' (List.mem_cons_of_mem _ hb')

theorem Meets.foldlM_each (post : α → Prop) (done : α → β → Prop)
    {f : α → β → Except ε α} {l : List β} {a : α} (ha : post a)
    (hf : ∀ a, ∀ b ∈ l, post a → Meets tolerated (f a b) fun a' =>
      post a' ∧ done a' b ∧ ∀ b', done a b' → done a' b') :
    Meets tolerated (l.foldlM f a) fun a' =>
      post a' ∧ (∀ b ∈ l, done a' b) ∧ ∀ b', done a b' → done a' b' := by
  induction l generalizing a with
  | nil => exact ⟨ha, fun b hb => absurd hb List.not_mem_nil, fun _ h => h⟩
  | cons b rest ih =>
    rw [List.foldlM_cons]
    apply (hf a b List.mem_cons_self ha).bind
    rintro a' ⟨ha', hb, hkeep⟩
    apply (ih ha' fun a b' hb' => hf a b' (List.mem_cons_of_mem _ hb')).imp
    rintro a'' ⟨ha'', hrest, hkeep'⟩
    refine ⟨ha'', fun b' hb' => ?_, fun b' hb' => hkeep' b' (hkeep b' hb')⟩
    rcases List.mem_cons.mp hb' with rfl | hb'
    · exact hkeep' b' hb
    · exact hrest b' hb'

/-- A C `int` holds the numbers below. -/
def intLimit : Nat := 2 ^ 31

/-- The passes of `for (i = 0; i < n; i++)` from `i` on, `left` of them, with a
counter that holds numbers below `limit`. There is no next value of the
counter after `limit - 1`, also not for the last test. -/
def countFrom (limit : Nat) (overflow : ε) (body : Nat → α → Except ε α)
    (i : Nat) : Nat → α → Except ε α
  | 0, a => .ok a
  | left + 1, a => do
      let a' ← body i a
      if i + 1 < limit then countFrom limit overflow body (i + 1) left a'
      else .error overflow

section Count

variable {limit i left : Nat} {overflow : ε} {body : Nat → α → Except ε α}
  {a : α}

/-- The rule for such a loop: an invariant that depends on the counter, which
every pass takes on by one. -/
theorem Meets.countFrom (post : Nat → α → Prop) (ha : post i a)
    (hbody : ∀ j a, j < i + left → post j a →
      Meets tolerated (body j a) (post (j + 1)))
    (hlimit : i + left < limit ∨ tolerated overflow) :
    Meets tolerated (countFrom limit overflow body i left a)
      (post (i + left)) := by
  induction left generalizing i a with
  | zero => exact ha
  | succ left ih =>
    apply (hbody i a (by omega) ha).bind
    intro a' ha'
    split_ifs with hnext
    · rw [show i + (left + 1) = i + 1 + left by omega]
      refine ih ha' (fun j b hj => hbody j b (by omega)) ?_
      exact hlimit.imp_left fun h => by omega
    · exact hlimit.resolve_left (by omega)

theorem countFrom_ok {b : α} (hlimit : i < limit)
    (hok : Machine.countFrom limit overflow body i left a = .ok b) :
    i + left < limit := by
  induction left generalizing i a with
  | zero => exact hlimit
  | succ left ih =>
    rw [Machine.countFrom] at hok
    cases hbody : body i a with
    | error e =>
      rw [hbody] at hok
      cases hok
    | ok a' =>
      rw [hbody] at hok
      change (if _ then _ else _) = _ at hok
      split_ifs at hok with hnext
      have hlt := ih hnext hok
      omega

end Count

end Libut.Machine
