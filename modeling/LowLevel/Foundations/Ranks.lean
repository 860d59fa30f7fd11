import Mathlib.Algebra.BigOperators.Group.Finset.Piecewise
import Mathlib.Algebra.Order.BigOperators.Group.Finset
import Mathlib.Algebra.Order.Ring.Nat

/-! # Ranks of many threads

The rank of a system is the sum of what its threads have left to do. A thread
that moves changes its own summand.
-/

namespace LowLevel

variable {ι α : Type*} [Fintype ι] {phase : ι → α} {t : ι} {p : α} {n : ℕ}

def total (worth : ι → α → ℕ) (phase : ι → α) : ℕ := ∑ t, worth t (phase t)

theorem total_le (worth : ι → α → ℕ) (phase : ι → α) (h : ∀ t, worth t (phase t) ≤ n) :
    total worth phase ≤ Fintype.card ι * n :=
  Finset.sum_le_card_nsmul Finset.univ (fun t => worth t (phase t)) n fun t _ => h t

variable [DecidableEq ι]

theorem total_update (worth : ι → α → ℕ) (phase : ι → α) (t : ι) (p : α) :
    total worth (Function.update phase t p) + worth t (phase t) =
      total worth phase + worth t p := by
  have hafter : total worth (Function.update phase t p) =
      worth t p + ∑ u ∈ Finset.univ \ {t}, worth u (phase u) := by
    rw [← Finset.sum_update_of_mem (Finset.mem_univ t)]
    apply Finset.sum_congr rfl
    intro u _
    exact Function.apply_update worth phase t p u
  have hbefore : total worth phase =
      worth t (phase t) + ∑ u ∈ Finset.univ \ {t}, worth u (phase u) :=
    Finset.sum_eq_add_sum_sdiff_singleton_of_mem (Finset.mem_univ t) _
  omega

theorem total_update_lt (worth : ι → α → ℕ) (h : worth t p < worth t (phase t)) :
    total worth (Function.update phase t p) < total worth phase := by
  have hupdate := total_update worth phase t p
  omega

end LowLevel
