import LowLevel.OrderBook.Refinement

/-! # Runs of the engine

A fresh engine agrees with an empty matcher, so by induction over the messages
every admissible run is free of faults, agrees with the run of the indexed
matcher, and keeps the book well formed.
-/

namespace LowLevel.OrderBook

open DoublyLinked FlowGenerator Engine

variable {B A : ℕ} {s : Engine B A} {rs : List Resting} {free : List ℕ} {n : Indexed}
  {msgs : List InboundMessage}

theorem agrees_init (hA : 0 < A) : Agrees ({} : Engine B A) {} [] (List.range A) := by
  constructor
  case book => exact book_init hA
  case orders => exact List.Perm.refl _
  case counter => rfl
  case trades => rfl

theorem forM_run (h : Agrees s n rs free) (hmsgs : ∀ m ∈ msgs, Admissible B m) :
    ∃ s' rs' free', msgs.forM process s = .ok (⟨⟩, s') ∧ Agrees s' (n.run A msgs) rs' free' ∧
      s'.outgoingQueue = s.outgoingQueue ++ (n.outputs A msgs).flatten ∧
      outputs s msgs = .ok (n.outputs A msgs) := by
  induction msgs generalizing s n rs free with
  | nil => exact ⟨s, rs, free, rfl, h, by simp [Indexed.outputs], rfl⟩
  | cons m msgs ih =>
    obtain ⟨s₁, rs₁, free₁, hrun, h₁, hout⟩ := process_run m h (hmsgs m (by simp))
    obtain ⟨s', rs', free', hruns, h', houts, hlist⟩ :=
      ih h₁ fun x hx => hmsgs x (List.mem_cons_of_mem _ hx)
    refine ⟨s', rs', free', ?_, h', ?_, ?_⟩
    · exact (bind_ok hrun).trans hruns
    · rw [houts, hout, Indexed.outputs, List.flatten_cons, List.append_assoc]
    · have hdrop : s₁.outgoingQueue.drop s.outgoingQueue.length = (n.process A m).2 := by
        rw [hout, List.drop_left]
      simp only [outputs, hrun, Indexed.outputs]
      change (do
        let rest ← outputs s₁ msgs
        pure (s₁.outgoingQueue.drop s.outgoingQueue.length :: rest)) = _
      rw [hlist, hdrop]
      rfl

theorem run_agrees (hA : 0 < A) (hmsgs : ∀ m ∈ msgs, Admissible B m) :
    ∃ s rs free, (run msgs : Except Fault (Engine B A)) = .ok s ∧
      Agrees s (Indexed.run A {} msgs) rs free ∧
      s.outgoingQueue = (Indexed.outputs A {} msgs).flatten ∧
      outputs ({} : Engine B A) msgs = .ok (Indexed.outputs A {} msgs) := by
  obtain ⟨s, rs, free, hrun, h, hout, houts⟩ := forM_run (agrees_init (B := B) hA) hmsgs
  refine ⟨s, rs, free, ?_, h, hout, houts⟩
  change (msgs.forM process {} : Except Fault (PUnit × Engine B A)).map Prod.snd = _
  rw [hrun]
  rfl

/-- A request for tests: the account, the client's number, side, quantity and price. -/
def enterMessage (account userRefNum : UInt32) (side : SideEnum) (quantity price : ℕ) :
    InboundMessage :=
  ⟨account, .enter { userRefNum, side, quantity, price }⟩

def cancelMessage (account userRefNum : UInt32) (quantity : ℕ) : InboundMessage :=
  ⟨account, .cancel { userRefNum, quantity }⟩

instance (msg : InboundMessage) : Decidable (Admissible B msg) := by
  unfold Admissible
  split <;> infer_instance

/-- No admissible run faults, whatever keys the clients choose. -/
theorem run_eq_ok (hA : 0 < A) (hmsgs : ∀ m ∈ msgs, Admissible B m) :
    ∃ s, (run msgs : Except Fault (Engine B A)) = .ok s := by
  obtain ⟨s, -, -, hrun, -⟩ := run_agrees hA hmsgs
  exact ⟨s, hrun⟩

/-- A witness run that reuses a key and cancels it twice. -/
theorem run_eq_ok_reusedKey : ∃ s, (run [enterMessage 1 1 .S 5 1, enterMessage 1 1 .S 3 1,
    cancelMessage 1 1 0, enterMessage 2 1 .B 9 MARKETPRICE, cancelMessage 1 1 0] :
      Except Fault (Engine 2 2)) = .ok s :=
  run_eq_ok (by decide) (by decide)

def isEnter (msg : InboundMessage) : Bool :=
  match msg.message with
  | .enter _ => true
  | _ => false

theorem nextArrivalSequence_run (n : Indexed) (msgs : List InboundMessage) :
    (n.run A msgs).nextArrivalSequence = n.nextArrivalSequence + msgs.countP isEnter := by
  induction msgs generalizing n with
  | nil => rfl
  | cons m msgs ih =>
    change ((n.process A m).1.run A msgs).nextArrivalSequence = _
    rw [ih, List.countP_cons]
    have hstep : (n.process A m).1.nextArrivalSequence =
        n.nextArrivalSequence + if isEnter m then 1 else 0 := by
      unfold Indexed.process isEnter
      cases m.message with
      | enter order => rfl
      | cancel c =>
        simp only [Naive.cancel]
        split
        · split <;> rfl
        · rfl
      | _ => rfl
    omega

/-- The representation invariant, read off the blocks that the levels lead to. -/
structure WellFormed (s : Engine B A) : Prop where
  list : ∀ p < B, IsList s.allocator.heap (s.orderBuffer p) (s.orders p)
  price : ∀ p < B, ∀ c ∈ s.orders p, c.2.raw.price = p
  side : ∀ p < B, (∀ c ∈ s.orders p, c.2.raw.side = .B) ∨ ∀ c ∈ s.orders p, c.2.raw.side = .S
  qty : ∀ c ∈ s.resting, 1 ≤ c.2.currQty ∧ c.2.currQty ≤ c.2.raw.quantity
  uncrossed : ∀ b ∈ s.resting, ∀ a ∈ s.resting, b.2.raw.side = .B → a.2.raw.side = .S →
    b.2.raw.price < a.2.raw.price
  buys : s.buyOrders = s.resting.countP (·.2.raw.side = .B)
  sells : s.sellOrders = s.resting.countP (·.2.raw.side = .S)
  bestBuy : (∀ c ∈ s.resting, c.2.raw.side = .B → c.2.raw.price ≤ s.bestBuyIdx) ∧
    ((∃ c ∈ s.resting, c.2.raw.side = .B ∧ c.2.raw.price = s.bestBuyIdx) ∨
      ((∀ c ∈ s.resting, c.2.raw.side ≠ .B) ∧ s.bestBuyIdx = 0))
  bestSell : (∀ c ∈ s.resting, c.2.raw.side = .S → s.bestSellIdx ≤ c.2.raw.price) ∧
    ((∃ c ∈ s.resting, c.2.raw.side = .S ∧ c.2.raw.price = s.bestSellIdx) ∨
      ((∀ c ∈ s.resting, c.2.raw.side ≠ .S) ∧ s.bestSellIdx = B))
  map : ∀ k i, s.orderBlocksMap k = some i → ∃ c ∈ s.resting, c.1 = i ∧ c.2.key = k

theorem mem_resting (h : Rep B s.allocator s.orderBuffer rs free) {c : ℕ × BlockData} :
    c ∈ s.resting ↔ ∃ r ∈ rs, r.cell = c :=
  (resting_perm h).mem_iff.trans List.mem_map

theorem forall_resting (h : Rep B s.allocator s.orderBuffer rs free)
    {P : ℕ × BlockData → Prop} : (∀ c ∈ s.resting, P c) ↔ ∀ r ∈ rs, P r.cell := by
  simp only [mem_resting h, forall_exists_index, and_imp, forall_apply_eq_imp_iff₂]

theorem exists_resting (h : Rep B s.allocator s.orderBuffer rs free)
    {P : ℕ × BlockData → Prop} : (∃ c ∈ s.resting, P c) ↔ ∃ r ∈ rs, P r.cell := by
  simp only [mem_resting h]
  constructor
  · rintro ⟨c, ⟨r, hr, rfl⟩, hP⟩
    exact ⟨r, hr, hP⟩
  · rintro ⟨r, hr, hP⟩
    exact ⟨r.cell, ⟨r, hr, rfl⟩, hP⟩

theorem countP_resting (h : Rep B s.allocator s.orderBuffer rs free) (side : SideEnum) :
    s.resting.countP (·.2.raw.side = side) = rs.countP (·.raw.side = side) := by
  rw [(resting_perm h).countP_eq, List.countP_map]
  rfl

variable {k : ℕ} {index : UInt64 → Option ℕ}

theorem Book.side_level (h : Book s rs free k index) (p : ℕ) :
    (∀ r ∈ atPrice p rs, r.raw.side = .B) ∨ ∀ r ∈ atPrice p rs, r.raw.side = .S := by
  by_cases hask : ∃ a ∈ atPrice p rs, a.raw.side = .S
  · right
    obtain ⟨a, ha, has⟩ := hask
    obtain ⟨ha, hap⟩ := mem_atPrice.mp ha
    intro r hr
    obtain ⟨hr, hrp⟩ := mem_atPrice.mp hr
    rcases h.side r hr with hs | hs
    · have hlt := h.uncrossed r hr a ha hs has
      omega
    · exact hs
  · left
    intro r hr
    rcases h.side r (mem_atPrice.mp hr).1 with hs | hs
    · exact hs
    · exact absurd ⟨r, hr, hs⟩ hask

theorem Book.wellFormed (h : Book s rs free k index) : WellFormed s := by
  constructor
  case list =>
    intro p hp
    rw [orders_eq h.rep hp]
    exact h.rep.levels p hp
  case price =>
    intro p hp c hc
    rw [orders_eq h.rep hp] at hc
    obtain ⟨r, hr, rfl⟩ := List.mem_map.mp hc
    exact (mem_atPrice.mp hr).2
  case side =>
    intro p hp
    rw [orders_eq h.rep hp]
    simp only [List.forall_mem_map]
    exact h.side_level p
  case qty =>
    rw [forall_resting h.rep]
    exact fun r hr => ⟨h.qty_pos r hr, h.qty_le r hr⟩
  case uncrossed =>
    simp only [forall_resting h.rep]
    exact h.uncrossed
  case buys => rw [countP_resting h.rep, h.buys]
  case sells => rw [countP_resting h.rep, h.sells]
  case bestBuy =>
    simp only [forall_resting h.rep, exists_resting h.rep]
    exact h.bestBuy
  case bestSell =>
    simp only [forall_resting h.rep, exists_resting h.rep]
    exact h.bestSell
  case map =>
    intro key i hi
    rw [exists_resting h.rep]
    rcases h.map key with ⟨hnone, -⟩ | ⟨r, hr, hslot, hkey, -⟩
    · rw [hnone] at hi
      cases hi
    · refine ⟨r, hr, ?_, hkey⟩
      rw [hslot] at hi
      exact Option.some.inj hi

theorem Book.ids_increase (h : Book s rs free k index) (hk : k < 2 ^ 64) {p : ℕ} (hp : p < B) :
    (s.orders p).Pairwise (·.2.id < ·.2.id) := by
  rw [orders_eq h.rep hp, List.pairwise_map]
  apply (h.sorted.sublist List.filter_sublist).imp_of_mem
  intro x y hx hy hlt
  have hxk := h.seq_lt x (mem_atPrice.mp hx).1
  have hyk := h.seq_lt y (mem_atPrice.mp hy).1
  change (x.seq + 1) % 2 ^ 64 < (y.seq + 1) % 2 ^ 64
  omega

/-- The representation invariant of every reachable state. Ids increase along a level as long
as the id counter has not wrapped. -/
theorem run_wellFormed (hA : 0 < A) (hmsgs : ∀ m ∈ msgs, Admissible B m) :
    ∃ s : Engine B A, run msgs = .ok s ∧ WellFormed s ∧
      (msgs.countP isEnter < 2 ^ 64 → ∀ p < B, (s.orders p).Pairwise (·.2.id < ·.2.id)) := by
  obtain ⟨s, rs, free, hrun, h, -⟩ := run_agrees hA hmsgs
  refine ⟨s, hrun, h.book.wellFormed, ?_⟩
  intro hlt p hp
  apply h.book.ids_increase _ hp
  rw [nextArrivalSequence_run]
  simpa using hlt

/-- A witness run: two bids at one level and an ask above them. -/
theorem run_wellFormed_twoBids : ∃ s : Engine 2 3,
    run [enterMessage 1 1 .B 5 0, enterMessage 2 1 .B 3 0, enterMessage 1 2 .S 4 1] = .ok s ∧
      WellFormed s ∧ ([enterMessage 1 1 .B 5 0, enterMessage 2 1 .B 3 0,
        enterMessage 1 2 .S 4 1].countP isEnter < 2 ^ 64 →
          ∀ p < 2, (s.orders p).Pairwise (·.2.id < ·.2.id)) :=
  run_wellFormed (by decide) (by decide)

section Wrap

/-- A request without shares is accepted, uses up an id, and changes nothing else. -/
theorem process_empty (n : Indexed) (account userRefNum : UInt32) (side : SideEnum) (p : ℕ) :
    (n.process A (enterMessage account userRefNum side 0 p)).1 =
      { n with nextArrivalSequence := n.nextArrivalSequence + 1 } := by
  simp [Indexed.process, enterMessage, Naive.enter, Naive.matching, Naive.incoming, applyEnter,
    matchLoop, remainder, Indexed.enterIndex, eraseFilled]

theorem run_replicate_empty (n : Indexed) (account userRefNum : UInt32) (side : SideEnum)
    (p k : ℕ) :
    n.run A (List.replicate k (enterMessage account userRefNum side 0 p)) =
      { n with nextArrivalSequence := n.nextArrivalSequence + k } := by
  induction k generalizing n with
  | zero => rfl
  | succ k ih =>
    rw [List.replicate_succ]
    change (n.process A _).1.run A _ = _
    rw [process_empty, ih]
    simp only [Nat.add_assoc, Nat.add_comm 1 k]

/-- A bid, a number of requests without shares, and a second bid at the same price. -/
def twoBids (k : ℕ) : List InboundMessage :=
  enterMessage 1 1 .B 1 0 :: List.replicate k (enterMessage 1 2 .B 0 0) ++
    [enterMessage 1 3 .B 1 0]

theorem twoBids_openOrders (k : ℕ) : (Indexed.run 2 {} (twoBids k)).openOrders =
    [⟨1, 1, .B, 0, 1, 0⟩, ⟨1, 3, .B, 0, 1, 1 + k⟩] := by
  have hsplit : Indexed.run 2 {} (twoBids k) =
      (((Indexed.process 2 {} (enterMessage 1 1 .B 1 0)).1.run 2
        (List.replicate k (enterMessage 1 2 .B 0 0))).process 2 (enterMessage 1 3 .B 1 0)).1 := by
    simp only [twoBids, Indexed.run, List.foldl_append, List.foldl_cons, List.foldl_nil]
  rw [hsplit, run_replicate_empty]
  rfl

theorem twoBids_admissible (k : ℕ) : ∀ m ∈ twoBids k, Admissible 1 m := by
  intro m hm
  rw [twoBids, List.mem_append, List.mem_cons, List.mem_replicate, List.mem_singleton] at hm
  rcases hm with (rfl | ⟨-, rfl⟩) | rfl
  all_goals exact ⟨.inl rfl, .inl Nat.one_pos⟩

theorem twoBids_ids (k : ℕ) : ∃ s : Engine 1 2, run (twoBids k) = .ok s ∧
    ((s.orders 0).Pairwise (·.2.id < ·.2.id) → 1 < (k + 2) % 2 ^ 64) := by
  obtain ⟨s, rs, free, hrun, h, -⟩ :=
    run_agrees (B := 1) (A := 2) (by decide) (twoBids_admissible k)
  refine ⟨s, hrun, ?_⟩
  rw [orders_eq h.book.rep Nat.one_pos, List.pairwise_map]
  intro hids
  have horders := h.orders
  rw [twoBids_openOrders] at horders
  obtain ⟨x, hx, hxs⟩ := List.mem_map.mp (horders.mem_iff.mp (List.mem_cons_self ..))
  obtain ⟨y, hy, hys⟩ := List.mem_map.mp
    (horders.mem_iff.mp (List.mem_cons_of_mem _ (List.mem_singleton_self _)))
  have hxp : x ∈ atPrice 0 rs := mem_atPrice.mpr ⟨hx, congrArg SimOrder.price hxs⟩
  have hyp : y ∈ atPrice 0 rs := mem_atPrice.mpr ⟨hy, congrArg SimOrder.price hys⟩
  have hxq : x.seq = 0 := congrArg SimOrder.arrivalSequence hxs
  have hyq : y.seq = 1 + k := congrArg SimOrder.arrivalSequence hys
  -- the level is in arrival order, so the first bid stands before the second
  have hboth := (h.book.sorted.sublist (List.filter_sublist (p := (·.raw.price = 0)))).and hids
  obtain ⟨i, hi, rfl⟩ := List.getElem_of_mem hxp
  obtain ⟨j, hj, rfl⟩ := List.getElem_of_mem hyp
  rw [List.pairwise_iff_getElem] at hboth
  rcases Nat.lt_trichotomy i j with hij | rfl | hij
  · have hlt := (hboth i j hi hj hij).2
    change ((atPrice 0 rs)[i].seq + 1) % 2 ^ 64 < ((atPrice 0 rs)[j].seq + 1) % 2 ^ 64 at hlt
    rw [hxq, hyq] at hlt
    omega
  · omega
  · have hlt := (hboth j i hj hi hij).1
    change (atPrice 0 rs)[j].seq < (atPrice 0 rs)[i].seq at hlt
    omega

/-- The id counter wraps: the second bid of the level has the smaller id. -/
theorem ids_wrap : ∃ (msgs : List InboundMessage) (s : Engine 1 2),
    (∀ m ∈ msgs, Admissible 1 m) ∧ run msgs = .ok s ∧
      ¬ (s.orders 0).Pairwise (·.2.id < ·.2.id) := by
  obtain ⟨s, hrun, hids⟩ := twoBids_ids (2 ^ 64 - 2)
  refine ⟨twoBids (2 ^ 64 - 2), s, twoBids_admissible _, hrun, fun hpair => ?_⟩
  have hlt := hids hpair
  omega

end Wrap

end LowLevel.OrderBook
