import Mathlib.Data.List.Nodup
import Mathlib.Logic.Function.Basic

/-! # Free lists threaded through a pool

The unused slots of a pool hold the link to the next unused slot. Taking the
head and pushing a slot back act on the represented list of free slots as
`tail` and `cons`.
-/

namespace LowLevel

/-- The links from a head pointer visit exactly the given slots, in order. -/
def FreeChain (link : ℕ → Option (Option ℕ)) : Option ℕ → List ℕ → Prop
  | p, [] => p = none
  | p, i :: l => p = some i ∧ ∃ n, link i = some n ∧ FreeChain link n l

namespace FreeChain

variable {link link' : ℕ → Option (Option ℕ)} {p : Option ℕ} {l : List ℕ} {i : ℕ}

theorem frame (h : FreeChain link p l) (hh : ∀ j ∈ l, link' j = link j) :
    FreeChain link' p l := by
  induction l generalizing p with
  | nil => exact h
  | cons j l ih =>
    obtain ⟨hp, n, hn, hl⟩ := h
    refine ⟨hp, n, (hh j (by simp)).trans hn, ih hl fun k hk => hh k ?_⟩
    exact List.mem_cons_of_mem _ hk

theorem unique {l' : List ℕ} (h : FreeChain link p l) (h' : FreeChain link p l') : l = l' := by
  induction l generalizing p l' with
  | nil =>
    cases l' with
    | nil => rfl
    | cons i l' => cases h.symm.trans h'.1
  | cons i l ih =>
    obtain ⟨rfl, n, hn, hl⟩ := h
    cases l' with
    | nil => cases h'
    | cons j l' =>
      obtain ⟨hj, n', hn', hl'⟩ := h'
      obtain rfl := Option.some.inj hj
      obtain rfl := Option.some.inj (hn.symm.trans hn')
      rw [ih hl hl']

theorem push (h : FreeChain link p l) (hi : i ∉ l) :
    FreeChain (Function.update link i (some p)) (some i) (i :: l) := by
  refine ⟨rfl, p, Function.update_self .., h.frame fun j hj => ?_⟩
  have hij : j ≠ i := by rintro rfl; exact hi hj
  exact Function.update_of_ne hij _ _

/-- Slots that are linked one after the other. -/
theorem map_range {f : ℕ → ℕ} {n : ℕ}
    (hl : ∀ i < n, link (f i) = some (if i + 1 < n then some (f (i + 1)) else none)) :
    FreeChain link (if 0 < n then some (f 0) else none) ((List.range n).map f) := by
  have key : ∀ d k, k + d = n →
      FreeChain link (if k < n then some (f k) else none) ((List.range' k d).map f) := by
    intro d
    induction d with
    | zero => rintro k rfl; simp [FreeChain]
    | succ d ih =>
      rintro k rfl
      have hk : k < k + (d + 1) := by omega
      refine ⟨by simp, _, hl k hk, ?_⟩
      exact ih (k + 1) (by omega)
  rw [List.range_eq_range']
  exact key n 0 (by omega)

theorem range {n : ℕ} (hl : ∀ i < n, link i = some (if i + 1 < n then some (i + 1) else none)) :
    FreeChain link (if 0 < n then some 0 else none) (List.range n) := by
  have hchain := map_range (f := id) hl
  rwa [List.map_id] at hchain

end FreeChain

end LowLevel
