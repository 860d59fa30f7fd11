import Mathlib.Data.List.Nodup
import Mathlib.Logic.Function.Basic

/-! # Calls and the tickets they draw

Threads make calls one after another. A call draws one ticket and then
succeeds, or it fails without one. The ledger lists the tickets in the order
in which they were drawn, each with the thread and the number of its call.
-/

namespace LowLevel

variable {A : Type*} [DecidableEq A] {tickets : List (A × ℕ)} {results : A → List Bool}
  {holds : A → Bool} {a : A} {i k k' : ℕ}

theorem fun_update {β γ : Type*} (f : β → γ) (g : A → β) (a : A) (x : β) :
    (fun b => f (Function.update g a x b)) = Function.update (fun b => f (g b)) a (f x) :=
  funext fun b => Function.apply_update (fun _ => f) g a x b

theorem update_eq {β : Type*} {g : A → β} {a b : A} {x y : β}
    (h : Function.update g a x b = y) : b = a ∧ x = y ∨ b ≠ a ∧ g b = y := by
  rcases eq_or_ne b a with rfl | hb
  · rw [Function.update_self] at h
    exact .inl ⟨rfl, h⟩
  · rw [Function.update_of_ne hb] at h
    exact .inr ⟨hb, h⟩

theorem map_update_eq {β γ : Type*} {f : β → γ} {g : A → β} {a b : A} {x : β} {y : γ}
    (h : f (Function.update g a x b) = y) : b = a ∧ f x = y ∨ b ≠ a ∧ f (g b) = y := by
  rw [Function.apply_update (fun _ => f)] at h
  exact update_eq h

theorem get_concat {α : Type*} {l : List α} {x y : α} {i : ℕ} (h : (l ++ [x])[i]? = some y) :
    l[i]? = some y ∨ i = l.length ∧ x = y := by
  rcases Nat.lt_trichotomy i l.length with hlt | rfl | hgt
  · rw [List.getElem?_append_left hlt] at h
    exact .inl h
  · rw [List.getElem?_concat_length] at h
    exact .inr ⟨rfl, Option.some.inj h⟩
  · rw [List.getElem?_eq_none (by rw [List.length_append, List.length_singleton]; omega)] at h
    cases h

theorem get_of_prefix {α : Type*} {l l' : List α} {x : α} {k : ℕ} (h : l <+: l')
    (hk : l[k]? = some x) : l'[k]? = some x := by
  obtain ⟨rest, rfl⟩ := h
  rw [List.getElem?_append_left (List.getElem?_eq_some_iff.mp hk).1, hk]

/-- The results of the calls of `a` that are settled: the completed ones, and the one under way
if it holds a ticket. -/
def settled (results : A → List Bool) (holds : A → Bool) (a : A) : List Bool :=
  results a ++ List.replicate (holds a).toNat true

def Ledger (tickets : List (A × ℕ)) (results : A → List Bool) (holds : A → Bool) : Prop :=
  ∀ a i, tickets.count (a, i) = if (settled results holds a)[i]? = some true then 1 else 0

namespace Ledger

theorem nil : Ledger (A := A) [] (fun _ => []) fun _ => false := fun a i => by
  simp [settled]

/-- The call under way draws a ticket. -/
theorem draw (h : Ledger tickets results holds) (ha : holds a = false) :
    Ledger (tickets ++ [(a, (results a).length)]) results (Function.update holds a true) := by
  intro b i
  have hb := h b i
  rcases eq_or_ne b a with rfl | hne
  · simp only [settled, ha, Bool.toNat_false, List.replicate_zero, List.append_nil] at hb
    simp only [settled, Function.update_self, Bool.toNat_true, List.replicate_one,
      List.count_append, List.count_singleton, hb]
    rcases eq_or_ne i (results b).length with rfl | hi
    · simp
    · rcases Nat.lt_or_gt_of_ne hi with hlt | hgt
      · simp [List.getElem?_append_left hlt, hi.symm]
      · have hlen : (results b ++ [true]).length ≤ i := by
          rw [List.length_append, List.length_singleton]
          omega
        rw [List.getElem?_eq_none hlen, List.getElem?_eq_none (by omega)]
        simp [hi.symm]
  · have hcount : [(a, (results a).length)].count (b, i) = 0 := by
      simp [Ne.symm hne]
    have hsame : settled results (Function.update holds a true) b = settled results holds b := by
      rw [settled, settled, Function.update_of_ne hne]
    rw [List.count_append, hcount, Nat.add_zero, hb, hsame]

theorem of_settled {results' : A → List Bool} {holds' : A → Bool}
    (h : Ledger tickets results holds)
    (heq : ∀ (b : A) (i : ℕ), (settled results' holds' b)[i]? = some true ↔
      (settled results holds b)[i]? = some true) : Ledger tickets results' holds' := by
  intro b i
  simp only [h b i, heq]

/-- The call that holds a ticket returns. -/
theorem finish (h : Ledger tickets results holds) (ha : holds a = true) :
    Ledger tickets (Function.update results a (results a ++ [true]))
      (Function.update holds a false) := by
  apply h.of_settled
  intro b i
  rcases eq_or_ne b a with rfl | hne
  · simp [settled, ha]
  · simp only [settled, Function.update_of_ne hne]

/-- The call under way fails. -/
theorem refuse (h : Ledger tickets results holds) (ha : holds a = false) :
    Ledger tickets (Function.update results a (results a ++ [false])) holds := by
  apply h.of_settled
  intro b i
  rcases eq_or_ne b a with rfl | hne
  · simp only [settled, Function.update_self, ha, Bool.toNat_false, List.replicate_zero,
      List.append_nil, List.getElem?_append, List.getElem?_singleton]
    split
    · rfl
    · have : (results b)[i]? = none := List.getElem?_eq_none (by omega)
      simp [this]
  · simp only [settled, Function.update_of_ne hne]

theorem ticket_inj (h : Ledger tickets results holds) (hk : tickets[k]? = some (a, i))
    (hk' : tickets[k']? = some (a, i)) : k = k' := by
  have hnodup : tickets.Nodup := by
    rw [List.nodup_iff_count_le_one]
    rintro ⟨b, j⟩
    rw [h b j]
    split <;> decide
  exact (List.getElem?_inj (List.getElem?_eq_some_iff.mp hk).1 hnodup).mp (hk.trans hk'.symm)

/-- A call that has failed has no ticket. -/
theorem notMem_of_failed (h : Ledger tickets results holds)
    (hi : (results a)[i]? = some false) : (a, i) ∉ tickets := by
  have hlt := (List.getElem?_eq_some_iff.mp hi).1
  have hsettled : (settled results holds a)[i]? = some false := by
    rw [settled, List.getElem?_append_left hlt, hi]
  rw [← List.count_eq_zero, h a i, hsettled]
  rfl

end Ledger

end LowLevel
