import Libut.Hwalloc.Admission

/-!
The running total of the guarantees against the clients it is kept for.
`control_create_proc` (`hwalloc/control.c`) adds a guarantee to `nr_guaranteed`
before it allocates anything and attaches the queues. When one of these steps
fails it returns `NULL` without taking the guarantee back, and the cores stay
reserved for nobody. A failed send to the dataplane is different, since
`control_destroy_proc` gives the guarantee back.
-/

namespace Libut.Hwalloc

open Machine

variable {π : Type}

def Control.Exact (s : Control π) : Prop :=
  s.nrGuaranteed.toNat = guaranteedTotal s.clients

/-- A registration that is counted is also completed, unless it is counted with
0. The sum that is then kept for the client does not wrap. -/
def keepsCount (total : BitVec 32) (s : Control π) : AdmissionAct π → Prop
  | .addClient _ _ r =>
    s.clients.length < hwallocdMaxProc →
    counted total s.nrGuaranteed r = true →
    r.hdr.guaranteedCores = 0 ∨ built r = true ∧ (r.sent = true →
      r.hdr.guaranteedCores.toNat + s.nrGuaranteed.toNat < 2 ^ 32)
  | .hangUp _ => True
  | .removeClient _ => True

instance (total : BitVec 32) (s : Control π) (a : AdmissionAct π) :
    Decidable (keepsCount total s a) :=
  match a with
  | .addClient _ _ _ => inferInstanceAs (Decidable (_ → _ → _ ∨ _))
  | .hangUp _ => isTrue trivial
  | .removeClient _ => isTrue trivial

variable {total : BitVec 32} {s t : Control π} {r : Registration}

theorem add_eq_self_iff (nr g : BitVec 32) : nr + g = nr ↔ g = 0 := by
  constructor
  · intro heq
    rw [← BitVec.add_sub_cancel g nr, BitVec.add_comm, heq]
    exact BitVec.sub_self nr
  · rintro rfl
    exact BitVec.add_zero nr

theorem add_toNat_eq_iff (nr g : BitVec 32) :
    (nr + g).toNat = g.toNat + nr.toNat ↔ g.toNat + nr.toNat < 2 ^ 32 := by
  have hlt := (nr + g).isLt
  rw [BitVec.toNat_add] at *
  omega

/-- From a state in which they agree, total and clients agree after a
registration exactly if it meets the condition. -/
theorem exact_addClient_iff (h : s.Exact) (fd : Nat) (p : π) :
    (controlAddClient total s fd p r).Exact ↔
      keepsCount total s (.addClient fd p r) := by
  by_cases hcounted : s.clients.length < hwallocdMaxProc ∧
      counted total s.nrGuaranteed r = true
  · rw [controlAddClient_counted fd p hcounted.1 hcounted.2, keepsCount]
    simp only [hcounted.1, hcounted.2, forall_const]
    unfold Control.Exact at h
    cases built r with
    | false =>
      -- the guarantee is lost
      have hlost : (s.nrGuaranteed + r.hdr.guaranteedCores).toNat =
          s.nrGuaranteed.toNat ↔ r.hdr.guaranteedCores = 0 := by
        rw [BitVec.toNat_inj]
        exact add_eq_self_iff _ _
      simpa [Control.Exact, ← h] using hlost
    | true =>
      cases r.sent with
      | false => simpa [Control.Exact] using h
      | true =>
        have hsum := add_toNat_eq_iff s.nrGuaranteed r.hdr.guaranteedCores
        have hzero : r.hdr.guaranteedCores = 0 →
            r.hdr.guaranteedCores.toNat + s.nrGuaranteed.toNat <
              2 ^ 32 := by
          intro hg
          rw [hg]
          exact (Nat.zero_add _).trans_lt s.nrGuaranteed.isLt
        simp only [if_true, Control.Exact, guaranteedTotal_concat, ← h,
          Client.share, Bool.false_eq_true, if_false, true_and, forall_const]
        rw [hsum]
        exact ⟨.inr, fun hor => hor.elim hzero id⟩
  · rw [controlAddClient_uncounted fd p hcounted]
    apply iff_of_true h
    intro hroom hyes
    exact absurd ⟨hroom, hyes⟩ hcounted

theorem Control.Exact.givesBack (h : s.Exact) {g : BitVec 32}
    (hback : GivesBack s t g) : t.Exact := by
  unfold Control.Exact at *
  have htotal := hback.total
  rw [hback.nr_toNat h.ge]
  omega

theorem exact_next_iff [DecidableEq π] (h : s.Exact)
    (hfds : (s.clients.map Client.fd).Nodup) {a : AdmissionAct π}
    (hnext : (admissionSystem π total).next s a = some t) :
    (t.Exact ↔ keepsCount total s a) ∧
      (t.clients.map Client.fd).Nodup := by
  cases a with
  | addClient fd p r =>
    simp only [admissionSystem, admissionNext] at hnext
    split at hnext
    · cases hnext
    · rename_i hfd
      cases hnext
      exact ⟨exact_addClient_iff h fd p, addClient_fds total p r hfds hfd⟩
  | hangUp fd =>
    simp only [admissionSystem, admissionNext] at hnext
    split at hnext <;> cases hnext
    rename_i hmem
    obtain ⟨g, hback⟩ := hangUp_givesBack hfds hmem
    exact ⟨iff_of_true (h.givesBack hback) trivial, hback.fds hfds⟩
  | removeClient p =>
    simp only [admissionSystem, admissionNext] at hnext
    cases hnext
    obtain ⟨g, hback⟩ := removeClient_givesBack s p
    exact ⟨iff_of_true (h.givesBack hback) trivial, hback.fds hfds⟩

/-- Along every run whose registrations meet the condition, `nr_guaranteed` is
the sum over the clients that are registered and not removed. From each state
of such a run, a step keeps that exactly if it meets the condition, and a
`control_create_proc` that fails leaves `nr_guaranteed` as it was exactly if it
was not counted, or with 0. -/
theorem reservations_match_clients [DecidableEq π]
    (hs : (admissionSystem π total).Reach (keepsCount total) s) :
    s.Exact ∧
      (∀ a t, (admissionSystem π total).next s a = some t →
        (t.Exact ↔ keepsCount total s a)) ∧
      ∀ r, (controlCreateProc total s.nrGuaranteed r).2 = false →
        ((controlCreateProc total s.nrGuaranteed r).1 = s.nrGuaranteed ↔
          (counted total s.nrGuaranteed r = true →
            r.hdr.guaranteedCores = 0)) := by
  have hinv : s.Exact ∧ (s.clients.map Client.fd).Nodup := by
    apply hs.invariant
    · rintro s ⟨hnr, hclients⟩
      simp [Control.Exact, hnr, hclients, guaranteedTotal]
    · rintro s a t ⟨hexact, hfds⟩ hok hnext
      obtain ⟨hiff, hfds'⟩ := exact_next_iff hexact hfds hnext
      exact ⟨hiff.mpr hok, hfds'⟩
  refine ⟨hinv.1, ?_, ?_⟩
  · intro a t hnext
    exact (exact_next_iff hinv.1 hinv.2 hnext).1
  · intro r _
    rw [controlCreateProc_eq]
    split
    · rename_i hcounted
      simp only [hcounted, forall_const]
      exact add_eq_self_iff _ _
    · rename_i hcounted
      simp [hcounted]

section Runs

theorem turnoverRun_kept :
    (((admissionSystem Nat 4).restrict fun s a =>
      decide (keepsCount 4 s a)).exec noClients turnoverRun).isSome := by
  with_unfolding_all decide

def keptTurnover : Control Nat :=
  (((admissionSystem Nat 4).restrict fun s a =>
    decide (keepsCount 4 s a)).exec noClients turnoverRun).get turnoverRun_kept

theorem reservations_match_clients_turnover :
    (admissionSystem Nat 4).Reach (keepsCount 4) keptTurnover ∧
      keptTurnover.nrGuaranteed = 4 ∧ keptTurnover.Exact := by
  have hs : (admissionSystem Nat 4).Reach (keepsCount 4) keptTurnover :=
    .of_checked noClients_init (Option.some_get turnoverRun_kept).symm
  exact ⟨hs, by with_unfolding_all decide, (reservations_match_clients hs).1⟩

/-- A client whose `threads` cannot be allocated, and then one that asks for
two of four cores. -/
def leakingRun : List (AdmissionAct Nat) :=
  [.addClient 5 0 { plainRegistration 3 with threadsAlloc := false },
    .addClient 5 0 (plainRegistration 2)]

theorem leakingRun_isSome :
    ((admissionSystem Nat 4).exec noClients leakingRun).isSome := by
  with_unfolding_all decide

/-- Three cores stay reserved though there is no client, and the second client
is turned down. -/
theorem failed_registration_leaks :
    (controlCreateProc 4 0
        { plainRegistration 3 with threadsAlloc := false } = (3, false)) ∧
      ∃ s : Control Nat, (admissionSystem Nat 4).Reach anyStep s ∧
        s.nrGuaranteed = 3 ∧ s.clients.length = 0 ∧ ¬ s.Exact := by
  refine ⟨by with_unfolding_all decide,
    ((admissionSystem Nat 4).exec noClients leakingRun).get leakingRun_isSome,
    ?_, ?_, ?_, ?_⟩
  · exact System.Reach.exec (.init noClients_init) leakingRun
      (Option.some_get leakingRun_isSome).symm
  · with_unfolding_all decide
  · with_unfolding_all decide
  · unfold Control.Exact
    with_unfolding_all decide

end Runs

end Libut.Hwalloc
