import LowLevel.OrderBook.Conservation
import Mathlib.Data.Fintype.Sum

/-! # Renaming the accounts

An account is a number that tells clients apart: on the network it is the
descriptor of a connection, in the benchmarks the number of a client. The engine
never compares two of them but for equality of keys, so a permutation of the
accounts of the requests is the same permutation of those of the answers.
-/

namespace LowLevel.OrderBook

open FlowGenerator Engine

variable {B A : ℕ} {n : Indexed} {msgs : List InboundMessage} {m : Matching}
  {incoming : SimOrder} {account : UInt32} {order : EnterRequestView} (π : Equiv.Perm UInt32)

theorem orderKey_split (key : UInt64) : orderKey (key >>> 32).toUInt32 key.toUInt32 = key := by
  apply UInt64.toNat_inj.mp
  rw [toNat_orderKey, UInt64.toNat_toUInt32, UInt64.toNat_toUInt32, UInt64.toNat_shiftRight]
  simp only [UInt64.reduceToNat, Nat.reduceMod, Nat.shiftRight_eq_div_pow]
  have := key.toNat_lt
  omega

/-- The permutation of the keys that goes with a permutation of the accounts. -/
def renameKey : Equiv.Perm UInt64 where
  toFun key := orderKey (π (key >>> 32).toUInt32) key.toUInt32
  invFun key := orderKey (π.symm (key >>> 32).toUInt32) key.toUInt32
  left_inv key := by simp [orderKey_split]
  right_inv key := by simp [orderKey_split]

@[simp] theorem renameKey_orderKey (account userRefNum : UInt32) :
    renameKey π (orderKey account userRefNum) = orderKey (π account) userRefNum := by
  simp [renameKey]

def InboundMessage.rename (msg : InboundMessage) : InboundMessage :=
  { msg with account := π msg.account }

def OutboundMessage.rename (o : OutboundMessage) : OutboundMessage :=
  { o with account := π o.account }

def SimOrder.rename (o : SimOrder) : SimOrder := { o with account := π o.account }

def OpenOrder.rename (o : OpenOrder) : OpenOrder := { o with account := π o.account }

def Fill.rename (f : Fill) : Fill := { f with resting := f.resting.rename π }

def Matching.rename (m : Matching) : Matching :=
  { m with
    openOrders := m.openOrders.map (SimOrder.rename π)
    fills := m.fills.map (Fill.rename π) }

def Indexed.rename (n : Indexed) : Indexed :=
  { n with
    openOrders := n.openOrders.map (SimOrder.rename π)
    index := n.index ∘ (renameKey π).symm }

theorem key_rename (o : SimOrder) : (o.rename π).key = renameKey π o.key :=
  (renameKey_orderKey π ..).symm

theorem rename_injective : Function.Injective (SimOrder.rename π) := by
  rintro ⟨a, u, side, p, q, seq⟩ ⟨a', u', side', p', q', seq'⟩ h
  simp only [SimOrder.rename, SimOrder.mk.injEq, EmbeddingLike.apply_eq_iff_eq] at h ⊢
  exact h

section Matching

variable {rule : SimOrder → SimOrder → Bool}

theorem best_rename (os : List SimOrder) :
    best SimOrder.reaches (incoming.rename π) (os.map (SimOrder.rename π)) =
      (best SimOrder.reaches incoming os).map (Prod.map id (SimOrder.rename π)) :=
  scanBest_map (P := fun _ => True) (fun _ _ => rfl) (fun _ _ _ _ => rfl) (fun _ _ => trivial)
    0 none (fun _ _ => trivial)

theorem trade_rename (m : Matching) (i : ℕ) (r : SimOrder) :
    trade (m.rename π) i (r.rename π) = (trade m i r).rename π := by
  simp only [trade, Matching.rename, List.map_append, apply_ite (List.map (SimOrder.rename π)),
    swapRemove_map, List.map_set]
  rfl

theorem matchLoop_rename {fuel : ℕ} :
    matchLoop SimOrder.reaches (incoming.rename π) fuel (m.rename π) =
      (matchLoop SimOrder.reaches incoming fuel m).rename π := by
  induction fuel generalizing m with
  | zero => rfl
  | succ fuel ih =>
    have hqty : (m.rename π).remainingQty = m.remainingQty := rfl
    have hbest : best SimOrder.reaches (incoming.rename π) (m.rename π).openOrders =
        (best SimOrder.reaches incoming m.openOrders).map (Prod.map id (SimOrder.rename π)) :=
      best_rename π _
    unfold matchLoop
    rw [hqty, hbest]
    split
    · rfl
    · cases hc : best SimOrder.reaches incoming m.openOrders with
      | none => rfl
      | some b =>
        simp only [Option.map_some, Prod.map, id_eq, trade_rename]
        exact ih

theorem matching_rename :
    (n.rename π).matching SimOrder.reaches (π account) order =
      (n.matching SimOrder.reaches account order).rename π := by
  unfold Naive.matching applyEnter
  rw [← matchLoop_rename]
  simp only [Indexed.rename, List.length_map]
  rfl

end Matching

section Enter

theorem update_rename (index : UInt64 → Option ℕ) (key : UInt64) (v : Option ℕ) :
    Function.update (index ∘ (renameKey π).symm) (renameKey π key) v =
      Function.update index key v ∘ (renameKey π).symm := by
  rw [Function.update_comp_equiv, Equiv.symm_symm]

theorem eraseFilled_rename (index : UInt64 → Option ℕ) (fills : List Fill) :
    eraseFilled (index ∘ (renameKey π).symm) (fills.map (Fill.rename π)) =
      eraseFilled index fills ∘ (renameKey π).symm := by
  induction fills generalizing index with
  | nil => rfl
  | cons f fills ih =>
    have hkey : (f.rename π).resting.key = renameKey π f.resting.key := key_rename π _
    unfold eraseFilled at ih ⊢
    rw [List.map_cons, List.foldl_cons, List.foldl_cons, hkey, update_rename]
    change List.foldl _ (if f.resting.remainingQty ≤ f.qty then _ else _) _ = _
    split
    · exact ih _
    · exact ih _

theorem remainder_rename : remainder A order (m.rename π) = remainder A order m := by
  simp only [remainder, Matching.rename, List.length_map]

theorem fillMessages_rename (userRefNum : UInt32) (t : ℕ) (fills : List Fill) :
    fillMessages (π account) userRefNum t (fills.map (Fill.rename π)) =
      (fillMessages account userRefNum t fills).map (OutboundMessage.rename π) := by
  induction fills generalizing t with
  | nil => rfl
  | cons f fills ih =>
    rw [List.map_cons, fillMessages, fillMessages, List.map_append, ih]
    rfl

theorem remainderMessages_rename (userRefNum : UInt32) (qty : ℕ) (rem : Remainder) :
    remainderMessages (π account) userRefNum qty rem =
      (remainderMessages account userRefNum qty rem).map (OutboundMessage.rename π) := by
  cases rem <;> rfl

theorem enter_rename :
    (n.rename π).enter SimOrder.reaches A (π account) order =
      ((n.process A ⟨account, .enter order⟩).1.rename π).toNaive := by
  simp only [Naive.enter, matching_rename, remainder_rename]
  simp only [Indexed.process, Indexed.rename, Matching.rename, Naive.enter, List.length_map,
    apply_ite (List.map (SimOrder.rename π)), List.map_append]
  rfl

theorem enterIndex_rename :
    (n.rename π).enterIndex A (π account) order =
      n.enterIndex A account order ∘ (renameKey π).symm := by
  simp only [Indexed.enterIndex, matching_rename, remainder_rename]
  simp only [Indexed.rename, Matching.rename, eraseFilled_rename, ← renameKey_orderKey,
    update_rename]
  split <;> rfl

theorem enterMessages_rename :
    (n.rename π).enterMessages SimOrder.reaches A (π account) order =
      (n.enterMessages SimOrder.reaches A account order).map (OutboundMessage.rename π) := by
  unfold Naive.enterMessages Naive.outcome
  simp only [matching_rename, remainder_rename, List.map_cons, List.map_append,
    ← fillMessages_rename, ← remainderMessages_rename]
  rfl

end Enter

section Cancel

theorem find_rename (key : UInt64) :
    (n.rename π).find (renameKey π key) = (n.find key).map (SimOrder.rename π) := by
  unfold Indexed.find
  simp only [Indexed.rename, Function.comp_apply, Equiv.symm_apply_apply, List.find?_map,
    Option.map_bind]
  rfl

theorem idxOf_rename (os : List SimOrder) (o : SimOrder) :
    (os.map (SimOrder.rename π)).idxOf (o.rename π) = os.idxOf o := by
  induction os with
  | nil => rfl
  | cons x os ih =>
    by_cases hxo : x = o
    · simp [hxo]
    · have hne : x.rename π ≠ o.rename π := fun h => hxo (rename_injective π h)
      rw [List.map_cons, List.idxOf_cons_ne _ hne, List.idxOf_cons_ne _ hxo, ih]

theorem reduce_rename (os : List SimOrder) (o : SimOrder) (q : ℕ) :
    reduce (os.map (SimOrder.rename π)) (o.rename π) q =
      (reduce os o q).map (SimOrder.rename π) := by
  simp only [reduce, idxOf_rename, swapRemove_map, apply_ite (List.map (SimOrder.rename π)),
    List.map_set]
  rfl

theorem cancel_rename (found : Option SimOrder) (c : CancelRequestView) :
    (n.rename π).cancel (found.map (SimOrder.rename π)) c =
      (Indexed.rename π ⟨n.toNaive.cancel found c, n.cancelIndex found c⟩).toNaive := by
  cases found with
  | none => rfl
  | some o =>
    have hreduce := reduce_rename π n.openOrders o c.quantity
    simp only [Naive.cancel, Option.map_some]
    change (if o.remainingQty ≤ c.quantity then _ else _) = _
    split
    · simp [Indexed.rename, *]
    · simp [Indexed.rename, *]

theorem cancelIndex_rename (found : Option SimOrder) (c : CancelRequestView) :
    (n.rename π).cancelIndex (found.map (SimOrder.rename π)) c =
      n.cancelIndex found c ∘ (renameKey π).symm := by
  cases found with
  | none => rfl
  | some o =>
    simp only [Indexed.cancelIndex, Option.map_some, key_rename]
    change (if o.remainingQty ≤ c.quantity then _ else _) = _
    split
    · rfl
    · split
      · exact update_rename π ..
      · rfl

theorem cancelMessages_rename (found : Option SimOrder) (c : CancelRequestView) :
    Naive.cancelMessages (π account) (found.map (SimOrder.rename π)) c =
      (Naive.cancelMessages account found c).map (OutboundMessage.rename π) := by
  cases found with
  | none => rfl
  | some o =>
    simp only [Naive.cancelMessages, Option.map_some, SimOrder.rename]
    split <;> rfl

end Cancel

theorem process_rename (msg : InboundMessage) :
    (n.rename π).process A (msg.rename π) =
      ((n.process A msg).1.rename π, (n.process A msg).2.map (OutboundMessage.rename π)) := by
  obtain ⟨account, message⟩ := msg
  cases message with
  | enter order =>
    simp only [InboundMessage.rename, Indexed.process, enter_rename, enterIndex_rename,
      enterMessages_rename]
    rfl
  | cancel c =>
    simp only [InboundMessage.rename, Indexed.process, ← renameKey_orderKey, find_rename,
      cancel_rename, cancelIndex_rename, cancelMessages_rename]
    rfl
  | _ => rfl

theorem run_rename (n : Indexed) (msgs : List InboundMessage) :
    (n.rename π).run A (msgs.map (InboundMessage.rename π)) = (n.run A msgs).rename π ∧
      (n.rename π).outputs A (msgs.map (InboundMessage.rename π)) =
        (n.outputs A msgs).map (List.map (OutboundMessage.rename π)) := by
  induction msgs generalizing n with
  | nil => exact ⟨rfl, rfl⟩
  | cons m msgs ih =>
    obtain ⟨hrun, houts⟩ := ih (n.process A m).1
    constructor
    · rw [List.map_cons, Indexed.run, List.foldl_cons, process_rename]
      exact hrun
    · rw [List.map_cons, Indexed.outputs, Indexed.outputs, process_rename, List.map_cons, houts]

theorem init_rename : Indexed.rename π {} = {} := rfl

theorem rename_admissible {msg : InboundMessage} :
    Admissible B (msg.rename π) ↔ Admissible B msg := Iff.rfl

/-- The engine is blind to which accounts its clients have: a permutation of the accounts permutes
the answers and the orders that rest, whatever keys the clients use. -/
theorem outputs_rename (hA : 0 < A) (hmsgs : ∀ m ∈ msgs, Admissible B m) :
    ∃ (s s' : Engine B A) (outs : List (List OutboundMessage)),
      run msgs = .ok s ∧ outputs ({} : Engine B A) msgs = .ok outs ∧
      run (msgs.map (InboundMessage.rename π)) = .ok s' ∧
      outputs ({} : Engine B A) (msgs.map (InboundMessage.rename π)) =
        .ok (outs.map (List.map (OutboundMessage.rename π))) ∧
      (s'.resting.map (·.2.openOrder)).Perm
        ((s.resting.map (·.2.openOrder)).map (OpenOrder.rename π)) := by
  have hrenamed : ∀ m ∈ msgs.map (InboundMessage.rename π), Admissible B m := by
    rw [List.forall_mem_map]
    exact fun m hm => (rename_admissible π).mpr (hmsgs m hm)
  obtain ⟨s, rs, free, hrun, h, -, houts⟩ := run_agrees hA hmsgs
  obtain ⟨s', rs', free', hrun', h', -, houts'⟩ := run_agrees hA hrenamed
  obtain ⟨hstate, hanswers⟩ := run_rename (A := A) π {} msgs
  rw [init_rename] at hstate hanswers
  refine ⟨s, s', _, hrun, houts, hrun', hanswers ▸ houts', ?_⟩
  have hopen := h'.openOrders_perm
  rw [hstate] at hopen
  refine hopen.trans ?_
  have hmap : (n : Indexed) → (n.rename π).openOrders.map SimOrder.openOrder =
      (n.openOrders.map SimOrder.openOrder).map (OpenOrder.rename π) := by
    intro n
    rw [Indexed.rename, List.map_map, List.map_map]
    rfl
  rw [hmap]
  exact (h.openOrders_perm.map _).symm

/-- A crossing order and a cancel, from two clients that change places. -/
theorem outputs_rename_swap : ∃ (s s' : Engine 3 2) (outs : List (List OutboundMessage)),
    run [enterMessage 1 1 .S 5 1, enterMessage 2 1 .B 3 1, cancelMessage 1 1 0] = .ok s ∧
    outputs ({} : Engine 3 2)
      [enterMessage 1 1 .S 5 1, enterMessage 2 1 .B 3 1, cancelMessage 1 1 0] = .ok outs ∧
    run ([enterMessage 1 1 .S 5 1, enterMessage 2 1 .B 3 1, cancelMessage 1 1 0].map
      (InboundMessage.rename (Equiv.swap 1 2))) = .ok s' ∧
    outputs ({} : Engine 3 2)
      ([enterMessage 1 1 .S 5 1, enterMessage 2 1 .B 3 1, cancelMessage 1 1 0].map
        (InboundMessage.rename (Equiv.swap 1 2))) =
          .ok (outs.map (List.map (OutboundMessage.rename (Equiv.swap 1 2)))) ∧
    (s'.resting.map (·.2.openOrder)).Perm
      ((s.resting.map (·.2.openOrder)).map (OpenOrder.rename (Equiv.swap 1 2))) :=
  outputs_rename _ (by decide) (by decide)

end LowLevel.OrderBook
