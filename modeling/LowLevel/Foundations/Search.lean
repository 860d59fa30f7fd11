import Mathlib.Data.List.Basic

/-! # Binary search

The lower bound of a key in a sequence whose elements below the key come first.
The loop halves the part that is left; on a partitioned sequence it ends at the
first element that is not below.
-/

namespace LowLevel

variable {α : Type*}

/-- The loop of a lower bound over the `len` elements from `first` on. -/
def lowerBoundLoop (below : α → Bool) (l : List α) : ℕ → ℕ → ℕ → ℕ
  | 0, first, _ => first
  | fuel + 1, first, len =>
    if 0 < len then
      let half := len / 2
      match l[first + half]? with
      | some x =>
        if below x then lowerBoundLoop below l fuel (first + half + 1) (len - half - 1)
        else lowerBoundLoop below l fuel first half
      | none => first
    else first

def lowerBound (below : α → Bool) (l : List α) : ℕ := lowerBoundLoop below l l.length 0 l.length

/-- The loop keeps the boundary between the two parts within its range. -/
theorem lowerBoundLoop_eq {below : α → Bool} {l : List α} {k : ℕ}
    (hk : ∀ i x, l[i]? = some x → (below x = true ↔ i < k)) {fuel first len : ℕ}
    (hf : len ≤ fuel) (hlo : first ≤ k) (hhi : k ≤ first + len) (hlen : first + len ≤ l.length) :
    lowerBoundLoop below l fuel first len = k := by
  induction fuel generalizing first len with
  | zero =>
    rw [lowerBoundLoop]
    omega
  | succ fuel ih =>
    rw [lowerBoundLoop]
    by_cases hpos : 0 < len
    · have hlt : first + len / 2 < l.length := by omega
      have hget : l[first + len / 2]? = some l[first + len / 2] := List.getElem?_eq_getElem hlt
      have hside := hk _ _ hget
      simp only [if_pos hpos, hget]
      by_cases hb : below l[first + len / 2]
      · rw [if_pos hb]
        have hlow := hside.mp hb
        exact ih (by omega) (by omega) (by omega) (by omega)
      · rw [if_neg hb]
        have hhigh := mt hside.mpr hb
        exact ih (by omega) (by omega) (by omega) (by omega)
    · rw [if_neg hpos]
      omega

theorem lowerBound_append {below : α → Bool} {l₁ l₂ : List α} (h₁ : ∀ x ∈ l₁, below x = true)
    (h₂ : ∀ x ∈ l₂, below x = false) : lowerBound below (l₁ ++ l₂) = l₁.length := by
  refine lowerBoundLoop_eq ?_ (Nat.le_refl _) (Nat.zero_le _) (by simp) (by simp)
  intro i x hx
  rcases Nat.lt_or_ge i l₁.length with hi | hi
  · rw [List.getElem?_append_left hi] at hx
    exact ⟨fun _ => hi, fun _ => h₁ x (List.mem_of_getElem? hx)⟩
  · rw [List.getElem?_append_right hi] at hx
    simp only [h₂ x (List.mem_of_getElem? hx), Bool.false_eq_true, false_iff]
    omega

/-- Inserting at the lower bound puts an element between the two parts. -/
theorem insertIdx_lowerBound_append {below : α → Bool} {l₁ l₂ : List α}
    (h₁ : ∀ x ∈ l₁, below x = true) (h₂ : ∀ x ∈ l₂, below x = false) (a : α) :
    (l₁ ++ l₂).insertIdx (lowerBound below (l₁ ++ l₂)) a = l₁ ++ a :: l₂ := by
  rw [lowerBound_append h₁ h₂]
  clear h₁
  induction l₁ with
  | nil => rfl
  | cons x l₁ ih => simp [ih]

end LowLevel
