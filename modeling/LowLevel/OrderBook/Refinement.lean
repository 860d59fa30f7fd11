import LowLevel.OrderBook.Matching

/-! # The engine refines the indexed matcher

Every admissible request runs without fault from a state that agrees with the
indexed matcher, publishes the messages of the matcher, and leaves the two in
agreement. This holds for every reuse of keys.
-/

namespace LowLevel.OrderBook

open DoublyLinked FlowGenerator Engine

variable {B A : ℕ} {s s' s₀ s₁ : Engine B A} {rs l₁ l₂ : List Resting} {free : List ℕ} {t k : ℕ}
  {index : UInt64 → Option ℕ} {r : Resting} {m : Matching} {n : Indexed}
  {account ref : UInt32} {order : EnterRequestView}

/-- A buy or sell within the buffer or at the market price, or a reduce request. -/
def Admissible (B : ℕ) (msg : InboundMessage) : Prop :=
  match msg.message with
  | .enter order =>
    (order.side = .B ∨ order.side = .S) ∧ (order.price < B ∨ order.price = MARKETPRICE)
  | .cancel _ => True
  | _ => False

/-- The engine and the matcher hold the same orders and have counted the same. -/
structure Agrees (s : Engine B A) (n : Indexed) (rs : List Resting) (free : List ℕ) : Prop where
  book : Book s rs free n.nextArrivalSequence n.index
  orders : n.openOrders.Perm (rs.map Resting.sim)
  counter : s.counter = n.nextArrivalSequence % 2 ^ 64
  trades : s.matchCounter = n.trades % 2 ^ 64

theorem Book.of_eq (h : Book s rs free k index) (ha : s'.allocator = s.allocator)
    (hbuf : s'.orderBuffer = s.orderBuffer) (hbuys : s'.buyOrders = s.buyOrders)
    (hsells : s'.sellOrders = s.sellOrders) (hbuy : s'.bestBuyIdx = s.bestBuyIdx)
    (hsell : s'.bestSellIdx = s.bestSellIdx) (hmap : s'.orderBlocksMap = s.orderBlocksMap) :
    Book s' rs free k index := by
  constructor
  case rep => rw [ha, hbuf]; exact h.rep
  case buys => rw [hbuys]; exact h.buys
  case sells => rw [hsells]; exact h.sells
  case bestBuy => rw [hbuy]; exact h.bestBuy
  case bestSell => rw [hsell]; exact h.bestSell
  case map => rw [hmap]; exact h.map
  case side => exact h.side
  case qty_pos => exact h.qty_pos
  case qty_le => exact h.qty_le
  case sorted => exact h.sorted
  case seq_lt => exact h.seq_lt
  case uncrossed => exact h.uncrossed

theorem Book.succ (h : Book s rs free k index) : Book s rs free (k + 1) index :=
  { h with seq_lt := fun r hr => Nat.lt_succ_of_lt (h.seq_lt r hr) }

theorem book_publish (h : Book s rs free k index) (msgs : List OutboundMessage) :
    Book ({ s with outgoingQueue := msgs } : Engine B A) rs free k index :=
  h.of_eq rfl rfl rfl rfl rfl rfl rfl

section Enter

variable (f g : Engine B A → Engine B A) (account order) in
/-- The common tail of the two insertions, after the matching loop. -/
def settle (id currQty : ℕ) : EngineM B A ℕ := do
  if 0 < currQty then
    if order.price = MARKETPRICE then
      sendCancelled account order.userRefNum currQty 'I'
      return 0
    match ← allocate with
    | none =>
      sendCancelled account order.userRefNum currQty 'Z'
      return 0
    | some newBlock =>
      modify f
      let key := orderKey account order.userRefNum
      store newBlock { ← load newBlock with id, key, currQty }
      modify g
      store newBlock { ← load newBlock with raw := order }
      appendList newBlock order.price
      insertKey key newBlock
      return id
  else return 0

theorem insertBuyOrder_eq (account : UInt32) (order : EnterRequestView) :
    (insertBuyOrder account order : EngineM B A ℕ) = (do
      modify fun s => { s with counter := (s.counter + 1) % 2 ^ 64 }
      let id := (← get).counter
      sendAccepted account order id
      settle account order
        (fun s => if s.bestBuyIdx < order.price then { s with bestBuyIdx := order.price } else s)
        (fun s => { s with buyOrders := s.buyOrders + 1 }) id
        (← matchBuy account order (A + 2) order.quantity)) := rfl

theorem insertSellOrder_eq (account : UInt32) (order : EnterRequestView) :
    (insertSellOrder account order : EngineM B A ℕ) = (do
      modify fun s => { s with counter := (s.counter + 1) % 2 ^ 64 }
      let id := (← get).counter
      sendAccepted account order id
      settle account order
        (fun s => if order.price < s.bestSellIdx then { s with bestSellIdx := order.price } else s)
        (fun s => { s with sellOrders := s.sellOrders + 1 }) id
        (← matchSell account order (if order.price = MARKETPRICE then 0 else order.price) (A + 2)
          order.quantity)) := rfl

/-- What the two insertions change outside the book when an order rests. -/
structure Rests (order : EnterRequestView) (f g : Engine B A → Engine B A) : Prop where
  f_setBook : ∀ s a buf, f (s.setBook a buf) = (f s).setBook a buf
  g_setBook : ∀ s a buf, g (s.setBook a buf) = (g s).setBook a buf
  eq : ∀ s, g (f s) = { s with
    buyOrders := s.buyOrders + if order.side = .B then 1 else 0
    sellOrders := s.sellOrders + if order.side = .S then 1 else 0
    bestBuyIdx :=
      if order.side = .B ∧ s.bestBuyIdx < order.price then order.price else s.bestBuyIdx
    bestSellIdx :=
      if order.side = .S ∧ order.price < s.bestSellIdx then order.price else s.bestSellIdx }

theorem rests_buy (h : order.side = .B) : Rests (B := B) (A := A) order
    (fun s => if s.bestBuyIdx < order.price then { s with bestBuyIdx := order.price } else s)
    (fun s => { s with buyOrders := s.buyOrders + 1 }) := by
  constructor
  case f_setBook => intro s a buf; dsimp only [setBook]; split <;> rfl
  case g_setBook => intro s a buf; rfl
  case eq => intro s; split <;> simp [*]

theorem rests_sell (h : order.side = .S) : Rests (B := B) (A := A) order
    (fun s => if order.price < s.bestSellIdx then { s with bestSellIdx := order.price } else s)
    (fun s => { s with sellOrders := s.sellOrders + 1 }) := by
  constructor
  case f_setBook => intro s a buf; dsimp only [setBook]; split <;> rfl
  case g_setBook => intro s a buf; rfl
  case eq => intro s; split <;> simp [*]

theorem matchLoop_remainingQty_le (rule : SimOrder → SimOrder → Bool) (incoming : SimOrder)
    (fuel : ℕ) (m : Matching) :
    (matchLoop rule incoming fuel m).remainingQty ≤ m.remainingQty := by
  induction fuel generalizing m with
  | zero => exact Nat.le_refl _
  | succ fuel ih =>
    unfold matchLoop
    split
    · exact Nat.le_refl _
    · split
      · exact Nat.le_refl _
      · refine Nat.le_trans (ih _) ?_
        rw [trade_remainingQty]
        exact Nat.sub_le _ _

theorem Stage.rest {f g : Engine B A → Engine B A} (hfg : Rests order f g)
    (h : Stage account ref s₁ t k index s m rs (r.slot :: free))
    (hraw : r.raw = order) (hseq : r.seq = k) (hside : order.side = .B ∨ order.side = .S)
    (hpos : 0 < r.currQty) (hle : r.currQty ≤ order.quantity) (hprice : order.price < B)
    (hcross : ∀ x ∈ rs, (order.side = .B → x.raw.side = .S → order.price < x.raw.price) ∧
      (x.raw.side = .B → order.side = .S → x.raw.price < order.price))
    {a : Allocator OrderBlock A} {buf : ℕ → OrderList} (hrep : Rep B a buf (rs ++ [r]) free) :
    Book ({ (g (f s)).setBook a buf with
        orderBlocksMap := Function.update (g (f s)).orderBlocksMap r.key (some r.slot) } :
          Engine B A) (rs ++ [r]) free (k + 1)
      (Function.update (eraseFilled index m.fills) r.key (some r.seq)) := by
  subst hraw
  rw [hfg.eq]
  apply h.book.append hseq hside hpos hle hcross hrep rfl rfl
  · rcases hside with hs | hs
    · simpa [setBook, hs] using h.book.bestBuy.append_buy hs
    · simpa [setBook, hs] using h.book.bestBuy.append_sell hs
  · rcases hside with hs | hs
    · simpa [setBook, hs] using h.book.bestSell.append_buy hs
    · simpa [setBook, hs] using h.book.bestSell.append_sell hs hprice
  · rfl

theorem remainder_rested {order : EnterRequestView} (h : remainder A order m = .rested) :
    m.remainingQty ≠ 0 ∧ order.price ≠ MARKETPRICE ∧ m.openOrders.length < A := by
  unfold remainder at h
  split_ifs at h with hq hmarket hroom
  exact ⟨hq, hmarket, Nat.lt_of_not_le hroom⟩

theorem remainder_none {order : EnterRequestView} (h : remainder A order m = .none) :
    m.remainingQty = 0 := by
  unfold remainder at h
  split_ifs at h with hq
  exact hq

/-- An order only rests while the pool has a block left. -/
theorem Stage.exists_block (h : Stage account ref s₁ t k index s m rs free)
    (hrem : remainder A order m = .rested) : ∃ i free', free = i :: free' := by
  obtain ⟨-, -, hroom⟩ := remainder_rested hrem
  have hlen := h.book.rep.length_le
  have hopen := h.orders.length_eq
  rw [List.length_map] at hopen
  exact List.exists_cons_of_length_pos (by omega)

theorem Stage.unrested (h : Stage account order.userRefNum s₁ n.trades n.nextArrivalSequence n.index
      s m rs free)
    (hm : n.matching SimOrder.reaches account order = m)
    (hcounter : s₁.counter = (n.nextArrivalSequence + 1) % 2 ^ 64)
    (hrem : remainder A order m ≠ .rested) (msgs : List OutboundMessage) :
    Agrees ({ s with outgoingQueue := msgs } : Engine B A)
      ⟨n.enter SimOrder.reaches A account order, n.enterIndex A account order⟩ rs free := by
  constructor
  case book =>
    simp only [Naive.enter, Indexed.enterIndex, hm, hrem, if_false]
    exact book_publish h.book.succ msgs
  case orders =>
    simp only [Naive.enter, hm, hrem, if_false]
    exact h.orders
  case counter => exact h.counter.trans hcounter
  case trades =>
    simp only [Naive.enter, hm]
    exact h.trades

theorem beyond_of_unreached {x : Resting} (hmarket : ¬ order.price = MARKETPRICE)
    (h : (n.incoming account order).reaches x.sim = false) :
    (order.side = .B → x.raw.side = .S → order.price < x.raw.price) ∧
      (x.raw.side = .B → order.side = .S → x.raw.price < order.price) := by
  constructor
  · intro hs hxs
    simpa [SimOrder.reaches, Naive.incoming, hs, hxs] using h
  · intro hxs hs
    simpa [SimOrder.reaches, Naive.incoming, hs, hxs, hmarket] using h

/-- With room in the pool what is left goes to the end of its level. -/
theorem settle_rest {f g : Engine B A → Engine B A} {i : ℕ} (hfg : Rests order f g)
    (hm : n.matching SimOrder.reaches account order = m)
    (h : Stage account order.userRefNum s₁ n.trades n.nextArrivalSequence n.index s m rs
      (i :: free))
    (hcounter : s₁.counter = (n.nextArrivalSequence + 1) % 2 ^ 64)
    (hside : order.side = .B ∨ order.side = .S) (hrem : remainder A order m = .rested)
    (hlt : order.price < B)
    (hfar : ∀ x ∈ rs, (n.incoming account order).reaches x.sim = false) :
    ∃ id s',
      settle account order f g ((n.nextArrivalSequence + 1) % 2 ^ 64) m.remainingQty s =
        .ok (id, s') ∧
      Agrees s' ⟨n.enter SimOrder.reaches A account order, n.enterIndex A account order⟩
        (rs ++ [⟨i, account, order, m.remainingQty, n.nextArrivalSequence⟩]) free ∧
      s'.outgoingQueue = s.outgoingQueue := by
  obtain ⟨hq, hmarket, -⟩ := remainder_rested hrem
  have hpos : 0 < m.remainingQty := Nat.pos_of_ne_zero hq
  have hcount : s.counter = (n.nextArrivalSequence + 1) % 2 ^ 64 := h.counter.trans hcounter
  let r : Resting := ⟨i, account, order, m.remainingQty, n.nextArrivalSequence⟩
  have hle : m.remainingQty ≤ order.quantity := by
    rw [← hm]
    exact matchLoop_remainingQty_le _ _ _ _
  obtain ⟨a, hallocate, hres⟩ := allocate_some h.book.rep
  obtain ⟨a', buf, hrun, hrep⟩ := rest_run (s := s.setBook a s.orderBuffer) (r := r)
    hfg.f_setBook hfg.g_setBook hres hlt
  rw [hfg.f_setBook, hfg.g_setBook, setBook_setBook] at hrun
  rw [settle, if_pos hpos, if_neg hmarket]
  refine ⟨_, _, (bind_ok hallocate).trans hrun, ?_, ?_⟩
  · constructor
    case book =>
      simp only [Naive.enter, Indexed.enterIndex, hm, hrem, if_true]
      have hcross := fun x hx => beyond_of_unreached hmarket (hfar x hx)
      exact h.rest hfg rfl rfl hside hpos hle hlt hcross hrep
    case orders =>
      simp only [Naive.enter, hm, hrem, if_true, List.map_append]
      exact h.orders.append_right _
    case counter =>
      simp only [hfg.eq]
      exact hcount
    case trades =>
      simp only [Naive.enter, hm, hfg.eq]
      exact h.trades
  · simp [hfg.eq, setBook]

/-- What is left of a market order, or of an order the pool has no room for, is cancelled. -/
theorem settle_cancelled {f g : Engine B A → Engine B A} {reason : Char}
    (h : Stage account order.userRefNum s₁ n.trades n.nextArrivalSequence n.index s m rs free)
    (hrem : remainder A order m = .cancelled reason) (id : ℕ) :
    settle account order f g id m.remainingQty s = .ok (0, { s with
      outgoingQueue := s.outgoingQueue ++
        [cancelled account order.userRefNum m.remainingQty reason] }) := by
  have hlen : free.length + m.openOrders.length = A := by
    rw [h.orders.length_eq, List.length_map]
    exact h.book.rep.length_le
  unfold remainder at hrem
  split_ifs at hrem with hq hmarket hroom
  · obtain rfl := Remainder.cancelled.inj hrem
    rw [settle, if_pos (Nat.pos_of_ne_zero hq), if_pos hmarket, sendCancelled, publish, modify_bind]
    rfl
  · obtain rfl := Remainder.cancelled.inj hrem
    obtain rfl : free = [] := List.eq_nil_of_length_eq_zero (by omega)
    rw [settle, if_pos (Nat.pos_of_ne_zero hq), if_neg hmarket, bind_ok (allocate_none h.book.rep)]
    simp only [sendCancelled, publish]
    rw [modify_bind]
    rfl

theorem settle_run {f g : Engine B A → Engine B A} (hfg : Rests order f g)
    (hm : n.matching SimOrder.reaches account order = m)
    (h : Stage account order.userRefNum s₁ n.trades n.nextArrivalSequence n.index s m rs free)
    (hcounter : s₁.counter = (n.nextArrivalSequence + 1) % 2 ^ 64)
    (hside : order.side = .B ∨ order.side = .S)
    (hprice : remainder A order m = .rested → order.price < B)
    (hend : m.remainingQty = 0 ∨ ∀ x ∈ rs, (n.incoming account order).reaches x.sim = false) :
    ∃ id s' rs' free',
      settle account order f g ((n.nextArrivalSequence + 1) % 2 ^ 64) m.remainingQty s =
        .ok (id, s') ∧
      Agrees s' ⟨n.enter SimOrder.reaches A account order, n.enterIndex A account order⟩ rs' free' ∧
      s'.outgoingQueue = s.outgoingQueue ++
        remainderMessages account order.userRefNum m.remainingQty (remainder A order m) := by
  have hnot := h.unrested hm hcounter
  cases hrem : remainder A order m with
  | none =>
    have hq : m.remainingQty = 0 := remainder_none hrem
    refine ⟨0, s, rs, free, ?_, hnot (by simp [hrem]) s.outgoingQueue, ?_⟩
    · simp [settle, hq]
    · simp [remainderMessages]
  | cancelled reason =>
    exact ⟨0, _, rs, free, settle_cancelled h hrem _, hnot (by simp [hrem]) _, rfl⟩
  | rested =>
    obtain ⟨hq, -, -⟩ := remainder_rested hrem
    obtain ⟨i, free, rfl⟩ := h.exists_block hrem
    obtain ⟨id, s', hrun, hagrees, hqueue⟩ := settle_rest hfg hm h hcounter hside hrem
      (hprice hrem) (hend.resolve_left hq)
    exact ⟨id, s', _, free, hrun, hagrees, by simp [hqueue, remainderMessages]⟩

/-- An order is only put into the book at a price inside the buffer. -/
theorem settle_price {f g : Engine B A → Engine B A} {id : ℕ} {y : ℕ × Engine B A}
    (h : Stage account ref s₁ t k index s m rs free) (hrem : remainder A order m = .rested)
    (hrun : settle account order f g id m.remainingQty s = .ok y) : order.price < B := by
  obtain ⟨hq, hmarket, -⟩ := remainder_rested hrem
  obtain ⟨i, free, rfl⟩ := h.exists_block hrem
  obtain ⟨a, hallocate, -⟩ := allocate_some h.book.rep
  rw [settle, if_pos (Nat.pos_of_ne_zero hq), if_neg hmarket, bind_ok hallocate] at hrun
  -- filling in the block comes first, then the level is looked up
  obtain ⟨_, _, -, hrun⟩ := of_bind_ok hrun
  obtain ⟨_, _, -, hrun⟩ := of_bind_ok hrun
  obtain ⟨_, _, -, hrun⟩ := of_bind_ok hrun
  obtain ⟨_, _, -, hrun⟩ := of_bind_ok hrun
  obtain ⟨_, _, -, hrun⟩ := of_bind_ok hrun
  obtain ⟨_, _, -, hrun⟩ := of_bind_ok hrun
  obtain ⟨_, _, happend, -⟩ := of_bind_ok hrun
  obtain ⟨_, _, hlevel, -⟩ := of_bind_ok happend
  exact lt_of_level_ok hlevel

def acceptedState (s : Engine B A) (n : Indexed) (account : UInt32) (order : EnterRequestView) :
    Engine B A :=
  { s with
    counter := (n.nextArrivalSequence + 1) % 2 ^ 64
    outgoingQueue := s.outgoingQueue ++
      [⟨account, accepted order ((n.nextArrivalSequence + 1) % 2 ^ 64)⟩] }

theorem insertOrder_loop (account : UInt32) (h : Agrees s n rs free)
    (hside : order.side = .B ∨ order.side = .S) :
    ∃ f g s₂ rs₂ free₂, Rests order f g ∧
      Stage account order.userRefNum (acceptedState s n account order) n.trades
        n.nextArrivalSequence n.index s₂ (n.matching SimOrder.reaches account order) rs₂ free₂ ∧
      ((n.matching SimOrder.reaches account order).remainingQty = 0 ∨
        ∀ x ∈ rs₂, (n.incoming account order).reaches x.sim = false) ∧
      insertOrder account order s = settle account order f g ((n.nextArrivalSequence + 1) % 2 ^ 64)
        (n.matching SimOrder.reaches account order).remainingQty s₂ := by
  have hid : (s.counter + 1) % 2 ^ 64 = (n.nextArrivalSequence + 1) % 2 ^ 64 := by
    rw [h.counter]
    omega
  have hstage : Stage account order.userRefNum (acceptedState s n account order) n.trades
      n.nextArrivalSequence n.index (acceptedState s n account order)
      ⟨order.quantity, n.openOrders, []⟩ rs free := by
    constructor
    case book => exact h.book.of_eq rfl rfl rfl rfl rfl rfl rfl
    case orders => exact h.orders
    case outgoing => simp [fillMessages]
    case trades => exact h.trades
    case counter => rfl
  have hlen := h.book.rep.length_le
  have hk : rs.length < n.openOrders.length + 1 := by
    have := h.orders.length_eq
    simp only [List.length_map] at this
    omega
  rcases hside with hs | hs
  · obtain ⟨s₂, rs₂, free₂, hloop, hstage₂, hend⟩ := loop_run
      (fun s m rs free => matchBuy_round (n.incoming account order) hs rfl) (A + 2)
      (n.openOrders.length + 1) hstage (.inr (by omega)) (.inr hk)
    refine ⟨_, _, s₂, rs₂, free₂, rests_buy hs, hstage₂, hend, ?_⟩
    rw [insertOrder, hs]
    simp only [insertBuyOrder_eq, modify_bind, get_bind, sendAccepted, publish, hid]
    exact bind_ok hloop
  · obtain ⟨s₂, rs₂, free₂, hloop, hstage₂, hend⟩ := loop_run
      (fun s m rs free => matchSell_round (n.incoming account order) hs rfl) (A + 2)
      (n.openOrders.length + 1) hstage (.inr (by omega)) (.inr hk)
    refine ⟨_, _, s₂, rs₂, free₂, rests_sell hs, hstage₂, hend, ?_⟩
    rw [insertOrder, hs]
    simp only [insertSellOrder_eq, modify_bind, get_bind, sendAccepted, publish, hid]
    exact bind_ok hloop

theorem insertOrder_run (h : Agrees s n rs free) (hside : order.side = .B ∨ order.side = .S)
    (hprice : remainder A order (n.matching SimOrder.reaches account order) = .rested →
      order.price < B) :
    ∃ id s' rs' free', insertOrder account order s = .ok (id, s') ∧
      Agrees s' ⟨n.enter SimOrder.reaches A account order, n.enterIndex A account order⟩ rs' free' ∧
      s'.outgoingQueue =
        s.outgoingQueue ++ n.enterMessages SimOrder.reaches A account order := by
  obtain ⟨f, g, s₂, rs₂, free₂, hfg, hstage, hend, heq⟩ := insertOrder_loop account h hside
  obtain ⟨id, s', rs', free', hsettle, hagrees, hout⟩ :=
    settle_run hfg rfl hstage rfl hside hprice hend
  refine ⟨id, s', rs', free', heq.trans hsettle, hagrees, ?_⟩
  rw [hout, hstage.outgoing]
  simp [acceptedState, Naive.enterMessages, Naive.outcome, SimOrder.id, Naive.incoming]

theorem insertOrder_price (h : Agrees s n rs free) (hside : order.side = .B ∨ order.side = .S)
    {y : ℕ × Engine B A} (hrun : insertOrder account order s = .ok y)
    (hrem : remainder A order (n.matching SimOrder.reaches account order) = .rested) :
    order.price < B := by
  obtain ⟨f, g, s₂, rs₂, free₂, -, hstage, -, heq⟩ := insertOrder_loop account h hside
  exact settle_price hstage hrem (heq.symm.trans hrun)

end Enter

section Cancel

variable {c : CancelRequestView}

theorem Agrees.find_eq (h : Agrees s n rs free) (key : UInt64) :
    (s.orderBlocksMap key = none ∧ n.find key = none) ∨
      ∃ l₁ r l₂, rs = l₁ ++ r :: l₂ ∧ s.orderBlocksMap key = some r.slot ∧ r.key = key ∧
        n.find key = some r.sim := by
  rcases h.book.map key with ⟨hmap, hidx⟩ | ⟨r, hr, hmap, hkey, hidx⟩
  · exact .inl ⟨hmap, by simp [Indexed.find, hidx]⟩
  · obtain ⟨l₁, l₂, rfl⟩ := List.append_of_mem hr
    refine .inr ⟨l₁, r, l₂, rfl, hmap, hkey, ?_⟩
    have hmem : r.sim ∈ n.openOrders := h.orders.mem_iff.mpr (List.mem_map.mpr ⟨r, hr, rfl⟩)
    -- arrival numbers are distinct, so the scan cannot meet another order first
    have huniq : ∀ o ∈ n.openOrders, o.arrivalSequence = r.seq → o = r.sim := by
      intro o ho hseq
      obtain ⟨x, hx, rfl⟩ := List.mem_map.mp (h.orders.mem_iff.mp ho)
      have hx' : x = r := h.book.seq_inj hx hr hseq
      rw [hx']
    unfold Indexed.find
    rw [hidx, Option.bind_some]
    cases hfind : n.openOrders.find? (·.arrivalSequence = r.seq) with
    | none => exact absurd (List.find?_eq_none.mp hfind r.sim hmem) (by simp)
    | some o =>
      rw [huniq o (List.mem_of_find?_eq_some hfind) (by simpa using List.find?_some hfind)]

/-- An order at the price of another one is on the same side, since the book is not crossed. -/
theorem same_side (h : Book s rs free k index) {x : Resting} (hr : r ∈ rs) (hx : x ∈ rs)
    (hprice : x.raw.price = r.raw.price) : x.raw.side = r.raw.side := by
  rcases h.side r hr with hs | hs
  · rcases h.side x hx with hxs | hxs
    · rw [hxs, hs]
    · have := h.uncrossed r hr x hx hs hxs
      omega
  · rcases h.side x hx with hxs | hxs
    · have := h.uncrossed x hx r hr hxs hs
      omega
    · rw [hxs, hs]

/-- The removed order was the last one of its level. -/
theorem repairBest_empty (s' : Engine B A) (h : Book s (l₁ ++ r :: l₂) free k index)
    (hrep : Rep B s'.allocator s'.orderBuffer (l₁ ++ l₂) (r.slot :: free))
    (hbuys : s'.buyOrders = s.buyOrders - if r.raw.side = .B then 1 else 0)
    (hsells : s'.sellOrders = s.sellOrders - if r.raw.side = .S then 1 else 0)
    (hbuy : s'.bestBuyIdx = s.bestBuyIdx) (hsell : s'.bestSellIdx = s.bestSellIdx)
    (hhead : (s'.orderBuffer r.raw.price).head = none) :
    ∃ bb bs, repairBest r.raw.price (decide (r.raw.side = .B)) s' =
        .ok (⟨⟩, { s' with bestBuyIdx := bb, bestSellIdx := bs }) ∧
      IsBestBuy (l₁ ++ l₂) bb ∧ IsBestSell B (l₁ ++ l₂) bs := by
  have hr : r ∈ l₁ ++ r :: l₂ := by simp
  unfold repairBest
  rw [bind_ok (level_apply (h.rep.price_lt r hr)), if_pos hhead, get_bind]
  rcases h.side r hr with hs | hs
  · have hsell' : IsBestSell B (l₁ ++ l₂) s'.bestSellIdx := hsell ▸ h.bestSell.remove_buy hs
    simp only [hs, decide_true, true_and, not_true, false_and, if_false]
    by_cases hbest : r.raw.price = s'.bestBuyIdx
    · rw [if_pos hbest]
      obtain ⟨k, hrun, hk⟩ :=
        h.repairBuy s' hs (hbest.trans hbuy) hrep (by simp [hbuys, hs]) hbuy
      exact ⟨k, s'.bestSellIdx, hrun, hk, hsell'⟩
    · rw [if_neg hbest]
      refine ⟨s'.bestBuyIdx, s'.bestSellIdx, rfl, ?_, hsell'⟩
      rw [hbuy] at hbest ⊢
      exact h.bestBuy.remove_buy (.inl hbest) hs
  · have hbuy' : IsBestBuy (l₁ ++ l₂) s'.bestBuyIdx := hbuy ▸ h.bestBuy.remove_sell hs
    have hnb : ¬ r.raw.side = .B := by simp [hs]
    simp only [hnb, decide_false, Bool.false_eq_true, false_and, not_false_eq_true, true_and,
      if_false]
    by_cases hbest : r.raw.price = s'.bestSellIdx
    · rw [if_pos hbest]
      obtain ⟨k, hrun, hk⟩ :=
        h.repairSell s' hs (hbest.trans hsell) hrep (by simp [hsells, hs]) hsell
      exact ⟨s'.bestBuyIdx, k, hrun, hbuy', hk⟩
    · rw [if_neg hbest]
      refine ⟨s'.bestBuyIdx, s'.bestSellIdx, rfl, hbuy', ?_⟩
      rw [hsell] at hbest ⊢
      exact h.bestSell.remove_sell (.inl hbest) hs

/-- The best prices are right again after a cancel, without a scan if the level is still in
use or was not the best one. -/
theorem repairBest_run (s' : Engine B A) (h : Book s (l₁ ++ r :: l₂) free k index)
    (hrep : Rep B s'.allocator s'.orderBuffer (l₁ ++ l₂) (r.slot :: free))
    (hbuys : s'.buyOrders = s.buyOrders - if r.raw.side = .B then 1 else 0)
    (hsells : s'.sellOrders = s.sellOrders - if r.raw.side = .S then 1 else 0)
    (hbuy : s'.bestBuyIdx = s.bestBuyIdx) (hsell : s'.bestSellIdx = s.bestSellIdx) :
    ∃ bb bs, repairBest r.raw.price (decide (r.raw.side = .B)) s' =
        .ok (⟨⟩, { s' with bestBuyIdx := bb, bestSellIdx := bs }) ∧
      IsBestBuy (l₁ ++ l₂) bb ∧ IsBestSell B (l₁ ++ l₂) bs := by
  have hr : r ∈ l₁ ++ r :: l₂ := by simp
  have hlt := h.rep.price_lt r hr
  by_cases hhead : (s'.orderBuffer r.raw.price).head = none
  · exact repairBest_empty s' h hrep hbuys hsells hbuy hsell hhead
  · unfold repairBest
    rw [bind_ok (level_apply hlt), if_neg hhead]
    refine ⟨s'.bestBuyIdx, s'.bestSellIdx, rfl, ?_⟩
    rw [head_eq_none hrep hlt] at hhead
    obtain ⟨x, hx⟩ := List.exists_mem_of_ne_nil _ hhead
    obtain ⟨hx, hxp⟩ := mem_atPrice.mp hx
    have hxs := same_side h hr (mem_of_mem_remove (r := r) hx) hxp
    rw [hbuy, hsell]
    rcases h.side r hr with hs | hs
    · exact ⟨h.bestBuy.remove_buy (.inr ⟨x, hx, hxs.trans hs, hxp⟩) hs, h.bestSell.remove_buy hs⟩
    · exact ⟨h.bestBuy.remove_sell hs, h.bestSell.remove_sell (.inr ⟨x, hx, hxs.trans hs, hxp⟩) hs⟩

theorem removeOrder_run (h : Book s (l₁ ++ r :: l₂) free k index) :
    ∃ s', removeOrder r.key r.slot r.raw.price (decide (r.raw.side = .B)) s = .ok (⟨⟩, s') ∧
      Book s' (l₁ ++ l₂) (r.slot :: free) k (Function.update index r.key none) ∧
      s'.outgoingQueue = s.outgoingQueue ∧ s'.counter = s.counter ∧
      s'.matchCounter = s.matchCounter := by
  have hr : r ∈ l₁ ++ r :: l₂ := by simp
  have hsells : (if decide (r.raw.side = .B) = true then 0 else 1) ≤ s.sellOrders := by
    rcases h.side r hr with hs | hs
    · simp [hs]
    · have hpos := h.sells_pos hr hs
      split <;> omega
  have hbuys : (if decide (r.raw.side = .B) = true then 1 else 0) ≤ s.buyOrders := by
    rcases h.side r hr with hs | hs
    · have hpos := h.buys_pos hr hs
      split <;> omega
    · simp [hs]
  let s₁ : Engine B A := { s with orderBlocksMap := Function.update s.orderBlocksMap r.key none }
  obtain ⟨s₂, a, buf, hunlink, hdealloc, hrep⟩ := remove_run (s := s₁) h.rep
  let s₃ : Engine B A := { s₁.setBook a buf with
    sellOrders := s.sellOrders - if decide (r.raw.side = .B) = true then 0 else 1
    buyOrders := s.buyOrders - if decide (r.raw.side = .B) = true then 1 else 0 }
  have hbuys₃ : s₃.buyOrders = s.buyOrders - if r.raw.side = .B then 1 else 0 := by simp [s₃]
  have hsells₃ : s₃.sellOrders = s.sellOrders - if r.raw.side = .S then 1 else 0 := by
    rcases h.side r hr with hs | hs <;> simp [s₃, hs]
  obtain ⟨bb, bs, hrepair, hbb, hbs⟩ := repairBest_run s₃ h hrep hbuys₃ hsells₃ rfl rfl
  refine ⟨{ s₃ with bestBuyIdx := bb, bestSellIdx := bs }, ?_, ?_, rfl, rfl, rfl⟩
  · unfold removeOrder eraseKey
    rw [modify_bind]
    refine (bind_ok hunlink).trans ((bind_ok hdealloc).trans ?_)
    rw [get_bind]
    refine (bind_ok (sub_apply hsells)).trans ?_
    rw [get_bind]
    refine (bind_ok (sub_apply hbuys)).trans ?_
    rw [modify_bind]
    exact hrepair
  · exact h.remove hrep hbuys₃ hsells₃ hbb hbs rfl

theorem cancelOrder_run (h : Agrees s n rs free) :
    let found := n.find (orderKey account c.userRefNum)
    ∃ q s' rs' free', cancelOrder account c s = .ok (q, s') ∧
      Agrees s' ⟨n.toNaive.cancel found c, n.cancelIndex found c⟩ rs' free' ∧
      s'.outgoingQueue = s.outgoingQueue ++ Naive.cancelMessages account found c := by
  intro found
  have hsame : ∀ msgs, Agrees ({ s with outgoingQueue := msgs } : Engine B A) n rs free :=
    fun msgs => ⟨book_publish h.book msgs, h.orders, h.counter, h.trades⟩
  unfold cancelOrder
  rw [get_bind]
  rcases h.find_eq (orderKey account c.userRefNum) with ⟨hmap, hfind⟩ |
    ⟨l₁, r, l₂, rfl, hmap, hkey, hfind⟩
  · simp only [hmap, found, hfind]
    exact ⟨0, _, rs, free, rfl, hsame _, rfl⟩
  · obtain ⟨b, hb, hd⟩ := load_resting h.book.rep (r := r) (by simp)
    have hbq : b.currQty = r.currQty := congrArg BlockData.currQty hd
    have hbraw : b.raw = r.raw := congrArg BlockData.raw hd
    simp only [hmap, found, hfind]
    rw [bind_ok (load_apply hb)]
    simp only [hbq, hbraw]
    by_cases hle : r.currQty ≤ c.quantity
    · rw [if_pos hle]
      simp only [Naive.cancel, Indexed.cancelIndex, Naive.cancelMessages, Resting.sim_remainingQty,
        hle, if_true]
      exact ⟨0, _, _, free, rfl, hsame _, rfl⟩
    · have hlt : c.quantity < r.currQty := Nat.lt_of_not_le hle
      rw [if_neg hle, bind_ok (sub_apply (Nat.le_of_lt hlt))]
      simp only [Naive.cancel, Indexed.cancelIndex, Naive.cancelMessages, Resting.sim_remainingQty,
        hle, if_false]
      have hi : n.openOrders[n.openOrders.idxOf r.sim]? = some r.sim := by
        apply List.getElem?_idxOf
        rw [h.orders.mem_iff]
        exact List.mem_map.mpr ⟨r, by simp, rfl⟩
      by_cases hq : c.quantity = 0
      · rw [if_neg (by omega)]
        obtain ⟨s', hrun, hbook, hout, hcounter, htrades⟩ := removeOrder_run h.book
        rw [hkey] at hrun
        refine ⟨r.currQty - c.quantity, { s' with outgoingQueue := s.outgoingQueue ++
            [cancelled account c.userRefNum (r.currQty - c.quantity) 'U'] },
          l₁ ++ l₂, r.slot :: free, ?_,
          ⟨?_, ?_, hcounter.trans h.counter, htrades.trans h.trades⟩, rfl⟩
        · rw [bind_ok hrun, sendCancelled, publish, modify_bind, hout]
          rfl
        · simp only [hq, if_true]
          exact book_publish hbook _
        · simp only [reduce, hq, if_true]
          exact perm_swapRemove h.orders hi
      · rw [if_pos (Nat.pos_of_ne_zero hq)]
        obtain ⟨a, hstore, hrep⟩ := setQty_run h.book.rep hb hd c.quantity
        rw [hbraw] at hstore
        refine ⟨r.currQty - c.quantity, { s.setBook a s.orderBuffer with
            outgoingQueue := s.outgoingQueue ++
              [cancelled account c.userRefNum (r.currQty - c.quantity) 'U'] },
          l₁ ++ { r with currQty := c.quantity } :: l₂, free,
          (bind_ok hstore).trans rfl, ⟨?_, ?_, h.counter, h.trades⟩, rfl⟩
        · simp only [hq, if_false]
          apply book_publish
          exact h.book.setQty (Nat.pos_of_ne_zero hq) (Nat.le_of_lt hlt) hrep rfl rfl rfl rfl rfl
        · simp only [reduce, hq, if_false]
          exact perm_set h.orders hi _

end Cancel

theorem process_run (msg : InboundMessage) (h : Agrees s n rs free) (hmsg : Admissible B msg) :
    ∃ s' rs' free', process msg s = .ok (⟨⟩, s') ∧ Agrees s' (n.process A msg).1 rs' free' ∧
      s'.outgoingQueue = s.outgoingQueue ++ (n.process A msg).2 := by
  unfold Admissible at hmsg
  unfold process Indexed.process
  cases hm : msg.message with
  | enter order =>
    rw [hm] at hmsg
    have hprice : remainder A order (n.matching SimOrder.reaches msg.account order) = .rested →
        order.price < B := fun hrem => hmsg.2.resolve_right (remainder_rested hrem).2.1
    obtain ⟨id, s', rs', free', hrun, hagrees, hout⟩ := insertOrder_run h hmsg.1 hprice
    exact ⟨s', rs', free', (bind_ok hrun).trans rfl, hagrees, hout⟩
  | cancel c =>
    obtain ⟨q, s', rs', free', hrun, hagrees, hout⟩ := cancelOrder_run h
    exact ⟨s', rs', free', (bind_ok hrun).trans rfl, hagrees, hout⟩
  | _ =>
    rw [hm] at hmsg
    exact hmsg.elim

theorem process_of_ok {msg : InboundMessage} (h : Agrees s n rs free)
    (hrun : process msg s = .ok (⟨⟩, s')) :
    ∃ rs' free', Agrees s' (n.process A msg).1 rs' free' ∧
      s'.outgoingQueue = s.outgoingQueue ++ (n.process A msg).2 := by
  cases hm : msg.message with
  | enter order =>
    simp only [process, hm] at hrun
    obtain ⟨_, _, hinsert, -⟩ := of_bind_ok hrun
    have hside : order.side = .B ∨ order.side = .S := by
      cases hs : order.side with
      | B => exact Or.inl rfl
      | S => exact Or.inr rfl
      | _ =>
        simp only [insertOrder, hs] at hinsert
        cases hinsert
    obtain ⟨id, s'', rs', free', hinsert', hagrees, hout⟩ :=
      insertOrder_run h hside (insertOrder_price h hside hinsert)
    rw [bind_ok hinsert'] at hrun
    cases hrun
    simp only [Indexed.process, hm]
    exact ⟨rs', free', hagrees, hout⟩
  | cancel c =>
    simp only [process, hm] at hrun
    obtain ⟨q, s'', rs', free', hcancel, hagrees, hout⟩ := cancelOrder_run h
    rw [bind_ok hcancel] at hrun
    cases hrun
    simp only [Indexed.process, hm]
    exact ⟨rs', free', hagrees, hout⟩
  | _ =>
    simp only [process, hm] at hrun
    cases hrun
    simp only [Indexed.process, hm]
    exact ⟨rs, free, h, (List.append_nil _).symm⟩

end LowLevel.OrderBook
