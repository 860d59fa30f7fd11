import LowLevel.OrderBook.Matching

/-! # Laws of the naive matching loop

One trade takes the selected order out of the list of open orders and puts
back what is left of it. Every law of the loop is an invariant of this step.
-/

namespace LowLevel.OrderBook

open FlowGenerator

variable {rule : SimOrder → SimOrder → Bool} {incoming r : SimOrder} {os : List SimOrder} {i : ℕ}
  {m : Matching}

theorem best_spec (h : best rule incoming os = some (i, r)) :
    os[i]? = some r ∧ rule incoming r = true ∧
      ∀ x ∈ os, rule incoming x = true → incoming.beats x r = false := by
  have hs := scanBest_state (rule incoming) incoming.beats_irrefl incoming.beats_of_not_beats os
  change ScanState _ _ _ (best rule incoming os) at hs
  rw [h] at hs
  exact hs

def leftover (m : Matching) (r : SimOrder) : List SimOrder :=
  if r.remainingQty ≤ m.remainingQty then []
  else [{ r with remainingQty := r.remainingQty - m.remainingQty }]

theorem trade_perm (hi : m.openOrders[i]? = some r) :
    ∃ os, m.openOrders.Perm (r :: os) ∧ (trade m i r).openOrders.Perm (leftover m r ++ os) := by
  unfold leftover
  by_cases hle : r.remainingQty ≤ m.remainingQty
  · refine ⟨swapRemove m.openOrders i, (swapRemove_perm hi).symm, ?_⟩
    simp [trade, hle]
  · obtain ⟨os, hos, hset⟩ :=
      set_perm hi { r with remainingQty := r.remainingQty - m.remainingQty }
    refine ⟨os, hos.symm, ?_⟩
    have hmin : min m.remainingQty r.remainingQty = m.remainingQty := by omega
    have hleft : r.remainingQty - m.remainingQty ≠ 0 := by omega
    simpa [trade, hle, hmin, hleft] using hset.symm

@[simp] theorem trade_fills (m : Matching) (i : ℕ) (r : SimOrder) :
    (trade m i r).fills = m.fills ++ [⟨r, min m.remainingQty r.remainingQty⟩] := rfl

theorem matchLoop_invariant {P : Matching → Prop}
    (hstep : ∀ m i r, P m → m.remainingQty ≠ 0 → best rule incoming m.openOrders = some (i, r) →
      P (trade m i r)) {fuel : ℕ} (h : P m) : P (matchLoop rule incoming fuel m) := by
  induction fuel generalizing m with
  | zero => exact h
  | succ fuel ih =>
    unfold matchLoop
    split
    · exact h
    · rename_i hq
      split
      · exact h
      · rename_i i r hbest
        exact ih (hstep m i r h hq hbest)

theorem matching_invariant {P : Matching → Prop} {n : Naive} {account : UInt32}
    {order : EnterRequestView} (h : P ⟨order.quantity, n.openOrders, []⟩)
    (hstep : ∀ m i r, P m → m.remainingQty ≠ 0 →
      best rule (n.incoming account order) m.openOrders = some (i, r) → P (trade m i r)) :
    P (n.matching rule account order) :=
  matchLoop_invariant hstep h

theorem best_congr {rule' : SimOrder → SimOrder → Bool}
    (h : ∀ x ∈ os, rule incoming x = rule' incoming x) :
    best rule incoming os = best rule' incoming os :=
  scanBest_congr h 0 none

def SimOrder.Same (o o' : SimOrder) : Prop := ∃ q, o' = { o with remainingQty := q }

theorem mem_trade (hi : m.openOrders[i]? = some r) {o : SimOrder}
    (ho : o ∈ (trade m i r).openOrders) : ∃ o' ∈ m.openOrders, o'.Same o := by
  obtain ⟨os, hos, htrade⟩ := trade_perm hi
  rw [htrade.mem_iff, List.mem_append] at ho
  rcases ho with ho | ho
  · unfold leftover at ho
    split at ho
    · cases ho
    · refine ⟨r, hos.mem_iff.mpr (List.mem_cons_self ..), _, List.mem_singleton.mp ho⟩
  · exact ⟨o, hos.mem_iff.mpr (List.mem_cons_of_mem _ ho), o.remainingQty, rfl⟩

theorem mem_matchLoop {fuel : ℕ} {o : SimOrder}
    (ho : o ∈ (matchLoop rule incoming fuel m).openOrders) : ∃ o' ∈ m.openOrders, o'.Same o := by
  revert o
  apply matchLoop_invariant (P := fun m' => ∀ o ∈ m'.openOrders, ∃ o' ∈ m.openOrders, o'.Same o)
  · intro m' i r h _ hbest o ho
    obtain ⟨x, hx, q, rfl⟩ := mem_trade (best_spec hbest).1 ho
    obtain ⟨y, hy, q', rfl⟩ := h x hx
    exact ⟨y, hy, q, rfl⟩
  · exact fun o ho => ⟨o, ho, o.remainingQty, rfl⟩

theorem reduce_perm {o : SimOrder} (ho : o ∈ os) (q : ℕ) :
    ∃ os', os.Perm (o :: os') ∧
      (reduce os o q).Perm (if q = 0 then os' else { o with remainingQty := q } :: os') := by
  have hi : os[os.idxOf o]? = some o := List.getElem?_idxOf ho
  unfold reduce
  by_cases hq : q = 0
  · simp only [hq, if_true]
    exact ⟨_, (swapRemove_perm hi).symm, List.Perm.refl _⟩
  · simp only [hq, if_false]
    obtain ⟨os', hos, hset⟩ := set_perm hi { o with remainingQty := q }
    exact ⟨os', hos.symm, hset.symm⟩

/-- Rules that agree on the open orders, whatever their quantity, match alike. -/
theorem matchLoop_congr {rule' : SimOrder → SimOrder → Bool} {fuel : ℕ}
    (h : ∀ x ∈ m.openOrders, ∀ y, x.Same y → rule incoming y = rule' incoming y) :
    matchLoop rule incoming fuel m = matchLoop rule' incoming fuel m := by
  induction fuel generalizing m with
  | zero => rfl
  | succ fuel ih =>
    have hbest : best rule incoming m.openOrders = best rule' incoming m.openOrders :=
      best_congr fun x hx => h x hx x ⟨x.remainingQty, rfl⟩
    unfold matchLoop
    rw [← hbest]
    split
    · rfl
    · split
      · rfl
      · rename_i i r hr
        apply ih
        intro x hx y hxy
        obtain ⟨z, hz, q, rfl⟩ := mem_trade (best_spec hr).1 hx
        obtain ⟨q', rfl⟩ := hxy
        exact h z hz _ ⟨q', rfl⟩

end LowLevel.OrderBook
