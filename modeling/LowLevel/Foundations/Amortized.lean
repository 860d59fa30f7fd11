import LowLevel.Foundations.Machine
import Mathlib.Algebra.BigOperators.Group.List.Basic
import Mathlib.Algebra.Order.Ring.Nat

/-! # Amortized bounds

A potential tells how much the actions of a run may still cost. An action is
paid by the potential, by the credit that it brings or by a gain of the system;
so the costs of a run are bounded by its credit and its gain. This is how a
retry is charged to the one who made it necessary.
-/

namespace LowLevel.Machine

variable {σ α : Type*} {M : Machine σ α} {I : σ → Prop} {s s' : σ} {acts : List α}

theorem run_append {pre post : List α} (h : M.run s (pre ++ post) = some s') :
    ∃ s₁, M.run s pre = some s₁ ∧ M.run s₁ post = some s' := by
  rw [run, List.foldlM_append] at h
  exact Option.bind_eq_some_iff.mp h

/-- What no step undoes holds in all states of a run if it holds in the last one. -/
theorem always_of_last {P : σ → Prop} (hback : ∀ s a s', M.step s a = some s' → P s' → P s)
    (hrun : M.run s acts = some s') (h : P s') : M.Always s acts P := by
  rintro pre s₁ ⟨post, rfl⟩ hpre
  obtain ⟨s₂, hs₂, hpost⟩ := run_append hrun
  obtain rfl : s₁ = s₂ := Option.some.inj (hpre.symm.trans hs₂)
  by_contra hnot
  have hkeep := run_invariant (P := fun x => ¬ P x) (M := M) ?_ hnot hpost
  · exact hkeep h
  · intro x a x' hx hstep hx'
    exact hx (hback x a x' hstep hx')

/-- The costs of a run are paid by its credit and its gain. -/
theorem run_amortized (cost credit : α → ℕ) (potential gain : σ → ℕ)
    (hstep : ∀ s a s', I s → M.step s a = some s' →
      cost a + potential s' + gain s ≤ potential s + credit a + gain s')
    (halways : M.Always s acts I) (hrun : M.run s acts = some s') :
    (acts.map cost).sum + potential s' + gain s ≤
      potential s + (acts.map credit).sum + gain s' := by
  have hall := run_history (M := M) (Q := fun pre x => M.run s pre = some x ∧ (pre <+: acts →
    (pre.map cost).sum + potential x + gain s ≤
      potential s + (pre.map credit).sum + gain x)) ?_ ⟨rfl, ?_⟩ hrun
  · exact hall.2 (List.prefix_refl acts)
  · rintro pre x a x' ⟨hpre, ih⟩ hx'
    refine ⟨run_concat hpre hx', fun hbegin => ?_⟩
    have hle := (List.prefix_append pre [a]).trans hbegin
    have hpaid := hstep x a x' (halways pre x hle hpre) hx'
    have hsofar := ih hle
    simp only [List.map_append, List.map_cons, List.map_nil, List.sum_append, List.sum_singleton]
    omega
  · rintro -
    simp only [List.map_nil, List.sum_nil]
    omega

/-- Actions of one kind that cost the same. -/
theorem sum_ite (f : α → Bool) (k : ℕ) (acts : List α) :
    (acts.map fun a => if f a then k else 0).sum = k * acts.countP f := by
  induction acts with
  | nil => rfl
  | cons a acts ih =>
    rw [List.map_cons, List.sum_cons, List.countP_cons, ih]
    split
    · rw [Nat.mul_succ, Nat.add_comm]
    · rw [Nat.add_zero, Nat.zero_add]

end LowLevel.Machine
