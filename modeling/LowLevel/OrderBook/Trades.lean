import LowLevel.OrderBook.Conservation

/-! # Trade reports

Executed messages come in pairs with consecutive match numbers. Within one
request, the trades are in price-time priority: once an order is filled, every
order still within reach is worse, or younger at the same price.
-/

namespace LowLevel.OrderBook

open DoublyLinked FlowGenerator Engine

variable {B A : ℕ} {s : Engine B A} {rs : List Resting} {free : List ℕ} {n : Indexed}
  {msgs : List InboundMessage} {os : List SimOrder} {m : Matching} {incoming : SimOrder}

/-- The first order comes before the second in price-time priority. -/
def SimOrder.Before (incoming a b : SimOrder) : Prop :=
  (if incoming.side = .B then a.price ≤ b.price else b.price ≤ a.price) ∧
    (a.price = b.price → a.arrivalSequence < b.arrivalSequence)

theorem before_of_not_beats {x r : SimOrder} (h : incoming.beats x r = false)
    (hne : r.arrivalSequence ≠ x.arrivalSequence) : incoming.Before r x := by
  unfold SimOrder.beats at h
  unfold SimOrder.Before
  by_cases hs : incoming.side = .B
  · simp only [hs, if_true, Bool.or_eq_false_iff, decide_eq_false_iff_not] at h ⊢
    omega
  · simp only [hs, if_false, Bool.or_eq_false_iff, decide_eq_false_iff_not] at h ⊢
    omega

/-- The trades so far, the open orders, and how they compare. -/
structure Prioritized (incoming : SimOrder) (os : List SimOrder) (m : Matching) : Prop where
  same : ∀ o ∈ m.openOrders, ∃ o' ∈ os, o'.Same o
  pos : ∀ o ∈ m.openOrders, 0 < o.remainingQty
  nodup : (m.openOrders.map SimOrder.arrivalSequence).Nodup
  fills : ∀ f ∈ m.fills, 1 ≤ f.qty ∧ incoming.reaches f.resting = true ∧
    ∃ o ∈ os, o.Same f.resting
  sorted : m.fills.Pairwise fun f g => incoming.Before f.resting g.resting
  ahead : m.remainingQty = 0 ∨ ∀ f ∈ m.fills, ∀ x ∈ m.openOrders,
    incoming.reaches x = true → incoming.Before f.resting x

theorem Prioritized.trade {i : ℕ} {r : SimOrder} (h : Prioritized incoming os m)
    (hq : m.remainingQty ≠ 0) (hbest : best SimOrder.reaches incoming m.openOrders = some (i, r)) :
    Prioritized incoming os (trade m i r) := by
  obtain ⟨hi, hreach, hmax⟩ := best_spec hbest
  obtain ⟨rest, hrest, htrade⟩ := trade_perm hi
  have hr : r ∈ m.openOrders := List.mem_of_getElem? hi
  have hpos := h.pos r hr
  have hmem : ∀ x ∈ rest, x ∈ m.openOrders :=
    fun x hx => hrest.mem_iff.mpr (List.mem_cons_of_mem _ hx)
  have hseq := (hrest.map SimOrder.arrivalSequence).nodup_iff.mp h.nodup
  rw [List.map_cons, List.nodup_cons] at hseq
  have hahead := h.ahead.resolve_left hq
  constructor
  case same =>
    intro o ho
    obtain ⟨x, hx, q, rfl⟩ := mem_trade hi ho
    obtain ⟨y, hy, q', rfl⟩ := h.same x hx
    exact ⟨y, hy, q, rfl⟩
  case pos =>
    intro o ho
    rw [htrade.mem_iff, List.mem_append] at ho
    rcases ho with ho | ho
    · unfold leftover at ho
      split at ho
      · cases ho
      · rw [List.mem_singleton.mp ho]
        simp only
        omega
    · exact h.pos o (hmem o ho)
  case nodup =>
    rw [(htrade.map _).nodup_iff]
    unfold leftover
    split
    · exact hseq.2
    · exact List.nodup_cons.mpr hseq
  case fills =>
    intro f hf
    rw [trade_fills, List.mem_append, List.mem_singleton] at hf
    rcases hf with hf | rfl
    · exact h.fills f hf
    · refine ⟨?_, hreach, h.same r hr⟩
      simp only
      omega
  case sorted =>
    rw [trade_fills, List.pairwise_append]
    refine ⟨h.sorted, List.pairwise_singleton .., fun f hf g hg => ?_⟩
    rw [List.mem_singleton.mp hg]
    exact hahead f hf r hr hreach
  case ahead =>
    by_cases hle : r.remainingQty ≤ m.remainingQty
    · right
      intro f hf x hx hxreach
      have hxr : x ∈ rest := by simpa [leftover, hle] using htrade.mem_iff.mp hx
      rw [trade_fills, List.mem_append, List.mem_singleton] at hf
      rcases hf with hf | rfl
      · exact hahead f hf x (hmem x hxr) hxreach
      · -- the selected order was best, and arrival numbers differ
        apply before_of_not_beats (hmax x (hmem x hxr) hxreach)
        intro he
        exact hseq.1 (he ▸ List.mem_map.mpr ⟨x, hxr, rfl⟩)
    · left
      rw [trade_remainingQty]
      omega

theorem Agrees.prioritized (h : Agrees s n rs free) (account : UInt32) (order : EnterRequestView) :
    Prioritized (n.incoming account order) n.openOrders
      (n.matching SimOrder.reaches account order) := by
  apply matching_invariant (P := Prioritized (n.incoming account order) n.openOrders)
  · constructor
    case same => exact fun o ho => ⟨o, ho, o.remainingQty, rfl⟩
    case pos =>
      intro o ho
      obtain ⟨r, hr, rfl⟩ := List.mem_map.mp (h.orders.mem_iff.mp ho)
      exact h.book.qty_pos r hr
    case nodup =>
      rw [(h.orders.map _).nodup_iff, List.map_map]
      exact List.pairwise_map.mpr (h.book.sorted.imp fun hlt => Nat.ne_of_lt hlt)
    case fills => exact fun f hf => by cases hf
    case sorted => exact List.Pairwise.nil
    case ahead => exact .inr fun f hf => by cases hf
  · exact fun m i r h hq hbest => h.trade hq hbest

def executions (out : List OutboundMessage) : List OutboundMessage :=
  out.filter OutboundMessage.isExecuted

@[simp] theorem executions_append (l l' : List OutboundMessage) :
    executions (l ++ l') = executions l ++ executions l' := List.filter_append ..

theorem executions_fillMessages (account ref : UInt32) (t : ℕ) (fs : List Fill) :
    executions (fillMessages account ref t fs) = fillMessages account ref t fs := by
  induction fs generalizing t with
  | nil => rfl
  | cons f fs ih =>
    rw [fillMessages, executions_append, ih]
    rfl

theorem length_fillMessages (account ref : UInt32) (t : ℕ) (fs : List Fill) :
    (fillMessages account ref t fs).length = 2 * fs.length := by
  induction fs generalizing t with
  | nil => rfl
  | cons f fs ih =>
    rw [fillMessages, List.length_append, ih, List.length_cons]
    simp only [legs, List.length_cons, List.length_nil]
    omega

theorem executions_remainder (account ref : UInt32) (q : ℕ) (r : Remainder) :
    executions (remainderMessages account ref q r) = [] := by
  cases r <;> rfl

theorem executions_cancel (account : UInt32) (found : Option SimOrder) (c : CancelRequestView) :
    executions (Naive.cancelMessages account found c) = [] := by
  unfold Naive.cancelMessages
  split
  · split <;> rfl
  · rfl

theorem process_executions (n : Indexed) (msg : InboundMessage) :
    (executions (n.process A msg).2).length + 2 * n.trades = 2 * (n.process A msg).1.trades := by
  unfold Indexed.process
  cases msg.message with
  | enter order =>
    have hone : ∀ l : List OutboundMessage, executions
        (⟨msg.account, accepted order (n.incoming msg.account order).id⟩ :: l) = executions l :=
      fun l => rfl
    simp only [Naive.enterMessages, Naive.outcome, hone, executions_append,
      executions_fillMessages, executions_remainder, List.append_nil, length_fillMessages,
      Naive.enter]
    omega
  | cancel c =>
    simp only [executions_cancel, List.length_nil, Naive.cancel]
    split
    · split <;> simp
    · simp
  | _ => simp [executions]

theorem run_executions (n : Indexed) (msgs : List InboundMessage) :
    (executions (n.outputs A msgs).flatten).length + 2 * n.trades = 2 * (n.run A msgs).trades := by
  induction msgs generalizing n with
  | nil => simp [Indexed.outputs, Indexed.run, executions]
  | cons m msgs ih =>
    have hstep := process_executions (A := A) n m
    have hrest := ih (n.process A m).1
    rw [Indexed.outputs, List.flatten_cons, executions_append, List.length_append]
    change _ = 2 * ((n.process A m).1.run A msgs).trades
    omega

/-- The messages of consecutive trades of one request; the k-th trade of the run is numbered
`number k`, and `t` trades were made before. -/
def pairs (number : ℕ → ℕ) (account ref : UInt32) : ℕ → List Fill → List OutboundMessage
  | _, [] => []
  | t, f :: fs =>
    legs account ref (number (t + 1)) f ++ pairs number account ref (t + 1) fs

theorem fillMessages_eq_pairs (account ref : UInt32) (t : ℕ) (fs : List Fill) :
    fillMessages account ref t fs = pairs (· % 2 ^ 64) account ref t fs := by
  induction fs generalizing t with
  | nil => rfl
  | cons f fs ih => rw [fillMessages, pairs, ih]

/-- The trades of an enter request, against the book as it was before. -/
structure TradeLaw (s : Engine B A) (order : EnterRequestView) (fills : List Fill) : Prop where
  qty_pos : ∀ f ∈ fills, 1 ≤ f.qty
  resting : ∀ f ∈ fills, ∃ c ∈ s.resting, c.2.key = f.resting.key ∧ c.2.id = f.resting.id ∧
    c.2.raw.price = f.resting.price ∧
    ((order.side = .B ∧ c.2.raw.side = .S) ∨ (order.side = .S ∧ c.2.raw.side = .B))
  limit : ∀ f ∈ fills, order.price = MARKETPRICE ∨
    if order.side = .B then f.resting.price ≤ order.price else order.price ≤ f.resting.price
  priority : fills.Pairwise fun f g =>
    if order.side = .B then f.resting.price ≤ g.resting.price
    else g.resting.price ≤ f.resting.price

def IdsIncrease (fills : List Fill) : Prop :=
  fills.Pairwise fun f g => f.resting.price = g.resting.price → f.resting.id < g.resting.id

/-- What processing a message adds to the published trades. The k-th trade of a run is to carry
`number k`, and ids are to increase if `ordered`. -/
def Reported (number : ℕ → ℕ) (ordered : Prop) (s s' : Engine B A) (msg : InboundMessage) : Prop :=
  match msg.message with
  | .enter order => ∃ t fills before after, (executions s.outgoingQueue).length = 2 * t ∧
      s'.outgoingQueue = s.outgoingQueue ++
        (before ++ pairs number msg.account order.userRefNum t fills ++ after) ∧
      executions before = [] ∧ executions after = [] ∧ TradeLaw s order fills ∧
      (ordered → IdsIncrease fills)
  | _ => executions s'.outgoingQueue = executions s.outgoingQueue

theorem Agrees.fill_resting (h : Agrees s n rs free) {account : UInt32}
    {order : EnterRequestView} {f : Fill}
    (hf : f ∈ (n.matching SimOrder.reaches account order).fills) :
    ∃ r ∈ rs, r.sim.Same f.resting := by
  obtain ⟨o, ho, hsame⟩ := ((h.prioritized account order).fills f hf).2.2
  obtain ⟨r, hr, rfl⟩ := List.mem_map.mp (h.orders.mem_iff.mp ho)
  exact ⟨r, hr, hsame⟩

theorem Agrees.tradeLaw (h : Agrees s n rs free)
    {account : UInt32} {order : EnterRequestView} (hside : order.side = .B ∨ order.side = .S) :
    TradeLaw s order (n.matching SimOrder.reaches account order).fills := by
  have hp := h.prioritized account order
  constructor
  case qty_pos => exact fun f hf => (hp.fills f hf).1
  case resting =>
    intro f hf
    obtain ⟨r, hr, q, hq⟩ := h.fill_resting hf
    have hreach := (hp.fills f hf).2.1
    rw [exists_resting h.book.rep]
    refine ⟨r, hr, ?_, ?_, ?_, ?_⟩
    · rw [hq]; rfl
    · rw [hq]; rfl
    · rw [hq]; rfl
    · have hne : r.raw.side ≠ order.side := by
        intro he
        simp [SimOrder.reaches, hq, Naive.incoming, he] at hreach
      change (order.side = .B ∧ r.raw.side = .S) ∨ (order.side = .S ∧ r.raw.side = .B)
      rcases hside with hs | hs <;> rcases h.book.side r hr with hr | hr <;> simp_all
  case limit =>
    intro f hf
    have hreach := (hp.fills f hf).2.1
    by_cases hm : order.price = MARKETPRICE
    · exact .inl hm
    · right
      simp only [SimOrder.reaches, Naive.incoming, hm, if_false, Bool.and_eq_true] at hreach
      have hprice := hreach.2
      split at hprice <;> rename_i hs <;> simp only [hs, if_true, if_false] <;>
        exact of_decide_eq_true hprice
  case priority => exact hp.sorted.imp fun hbefore => hbefore.1

theorem Agrees.idsIncrease (h : Agrees s n rs free) (hlt : n.nextArrivalSequence < 2 ^ 64)
    (account : UInt32) (order : EnterRequestView) :
    IdsIncrease (n.matching SimOrder.reaches account order).fills := by
  apply (h.prioritized account order).sorted.imp_of_mem
  intro f g hf hg hbefore hprice
  have hseq := hbefore.2 hprice
  obtain ⟨r, hr, q, hq⟩ := h.fill_resting hg
  have hg' : g.resting.arrivalSequence < n.nextArrivalSequence := by
    rw [hq]
    exact h.book.seq_lt r hr
  unfold SimOrder.id
  omega

/-- The trade reporting law for every message of a run. Numbers and ids are those of 64-bit
counters: the ids of the orders in the book increase as long as the id counter has not wrapped. -/
theorem process_reported (hA : 0 < A) {pre : List InboundMessage} {msg : InboundMessage}
    (hmsgs : ∀ m ∈ pre ++ [msg], Admissible B m) :
    ∃ s s' : Engine B A, run pre = .ok s ∧ process msg s = .ok (⟨⟩, s') ∧
      Reported (· % 2 ^ 64) (pre.countP isEnter < 2 ^ 64) s s' msg := by
  have hmsg : Admissible B msg := hmsgs msg (by simp)
  obtain ⟨s, rs, free, hrun, h, hout, -⟩ :=
    run_agrees hA fun m hm => hmsgs m (List.mem_append_left _ hm)
  obtain ⟨s', rs', free', hstep, -, hout'⟩ := process_run msg h hmsg
  have hseq := nextArrivalSequence_run (A := A) {} pre
  have hexec := run_executions (A := A) {} pre
  rw [← hout] at hexec
  refine ⟨s, s', hrun, hstep, ?_⟩
  unfold Reported
  cases hm : msg.message with
  | enter order =>
    unfold Admissible at hmsg
    rw [hm] at hmsg
    let n := Indexed.run A {} pre
    let m := n.matching SimOrder.reaches msg.account order
    refine ⟨n.trades, m.fills, [⟨msg.account, accepted order (n.incoming msg.account order).id⟩],
      remainderMessages msg.account order.userRefNum m.remainingQty (remainder A order m), hexec,
      ?_, rfl, executions_remainder .., h.tradeLaw hmsg.1, ?_⟩
    · rw [hout', ← fillMessages_eq_pairs]
      simp only [Indexed.process, hm, Naive.enterMessages, Naive.outcome]
      rfl
    · intro hlt
      exact h.idsIncrease (by simp only at hseq; omega) msg.account order
  | cancel c =>
    rw [hout', executions_append]
    simp [Indexed.process, hm, executions_cancel]
  | _ =>
    unfold Admissible at hmsg
    rw [hm] at hmsg
    exact hmsg.elim

/-- A witness: a market buy that takes two asks at different prices. -/
theorem process_reported_sweep : ∃ s s' : Engine 3 2,
    run [enterMessage 1 1 .S 5 2, enterMessage 1 2 .S 2 1] = .ok s ∧
      process (enterMessage 2 1 .B 4 MARKETPRICE) s = .ok (⟨⟩, s') ∧
      Reported (· % 2 ^ 64) ([enterMessage 1 1 .S 5 2, enterMessage 1 2 .S 2 1].countP isEnter <
        2 ^ 64) s s' (enterMessage 2 1 .B 4 MARKETPRICE) :=
  process_reported (by decide) (by decide)

section Wrap

def crossing : List InboundMessage := [enterMessage 1 1 .S 1 0, enterMessage 1 2 .B 1 0]

theorem run_crossing (h : n.openOrders = []) :
    (n.run 1 crossing).openOrders = [] ∧ (n.run 1 crossing).trades = n.trades + 1 := by
  obtain ⟨⟨os, q, t⟩, index⟩ := n
  obtain rfl : os = [] := h
  exact ⟨rfl, rfl⟩

def crossings (k : ℕ) : List InboundMessage :=
  (List.replicate k crossing).flatten ++ [enterMessage 1 1 .S 1 0]

theorem run_replicate_crossing (k : ℕ) (h : n.openOrders = []) :
    (n.run 1 (List.replicate k crossing).flatten).openOrders = [] ∧
      (n.run 1 (List.replicate k crossing).flatten).trades = n.trades + k := by
  induction k generalizing n with
  | zero => exact ⟨h, rfl⟩
  | succ k ih =>
    obtain ⟨hempty, htrades⟩ := run_crossing h
    have hsplit : n.run 1 (List.replicate (k + 1) crossing).flatten =
        (n.run 1 crossing).run 1 (List.replicate k crossing).flatten := by
      rw [List.replicate_succ, List.flatten_cons]
      exact List.foldl_append ..
    rw [hsplit]
    obtain ⟨hempty', htrades'⟩ := ih hempty
    refine ⟨hempty', ?_⟩
    rw [htrades', htrades]
    omega

theorem crossings_admissible (k : ℕ) :
    ∀ m ∈ crossings k ++ [enterMessage 1 2 .B 1 0], Admissible 1 m := by
  intro m hm
  rw [crossings, List.mem_append, List.mem_append, List.mem_singleton, List.mem_singleton] at hm
  rcases hm with (hm | rfl) | rfl
  · obtain ⟨l, hl, hm⟩ := List.mem_flatten.mp hm
    rw [List.eq_of_mem_replicate hl] at hm
    simp only [crossing, List.mem_cons, List.not_mem_nil, or_false] at hm
    rcases hm with rfl | rfl
    · exact ⟨.inr rfl, .inl Nat.one_pos⟩
    · exact ⟨.inl rfl, .inl Nat.one_pos⟩
  · exact ⟨.inr rfl, .inl Nat.one_pos⟩
  · exact ⟨.inl rfl, .inl Nat.one_pos⟩

theorem executions_crossings (k : ℕ) :
    (Indexed.run 1 {} (crossings k)).trades = k ∧ ∃ f,
      executions ((Indexed.run 1 {} (crossings k)).process 1 (enterMessage 1 2 .B 1 0)).2 =
        legs 1 2 ((k + 1) % 2 ^ 64) f := by
  have hsplit : Indexed.run 1 {} (crossings k) =
      ((Indexed.run 1 {} (List.replicate k crossing).flatten).process 1
        (enterMessage 1 1 .S 1 0)).1 := by
    simp only [crossings, Indexed.run, List.foldl_append, List.foldl_cons, List.foldl_nil]
  obtain ⟨hempty, htrades⟩ := run_replicate_crossing (n := {}) k rfl
  rw [hsplit]
  generalize Indexed.run 1 {} (List.replicate k crossing).flatten = n at hempty htrades
  obtain ⟨⟨os, q, t⟩, index⟩ := n
  obtain rfl : os = [] := hempty
  obtain rfl : t = k := by simpa using htrades
  exact ⟨rfl, _, rfl⟩

theorem executions_pairs (number : ℕ → ℕ) (account ref : UInt32) (t : ℕ) (fs : List Fill) :
    executions (pairs number account ref t fs) = pairs number account ref t fs := by
  induction fs generalizing t with
  | nil => rfl
  | cons f fs ih =>
    rw [pairs, executions_append, ih]
    rfl

/-- The match number wraps: the trade number `2 ^ 64` is reported as number zero. -/
theorem matchNumber_wraps : ∃ (pre : List InboundMessage) (msg : InboundMessage)
    (s s' : Engine 1 1), (∀ m ∈ pre ++ [msg], Admissible 1 m) ∧ run pre = .ok s ∧
      process msg s = .ok (⟨⟩, s') ∧ ¬ Reported id True s s' msg := by
  have hadm := crossings_admissible (2 ^ 64 - 1)
  obtain ⟨htrades, f, hlegs⟩ := executions_crossings (2 ^ 64 - 1)
  obtain ⟨s, rs, free, hrun, h, hout, -⟩ := run_agrees (B := 1) (A := 1) Nat.one_pos
    fun m hm => hadm m (List.mem_append_left _ hm)
  obtain ⟨s', -, -, hstep, -, hout'⟩ := process_run (enterMessage 1 2 .B 1 0) h
    (hadm _ (by simp))
  refine ⟨crossings (2 ^ 64 - 1), _, s, s', hadm, hrun, hstep, ?_⟩
  rintro ⟨t, fills, before, after, ht, heq, hbefore, hafter, -⟩
  have hexec := run_executions (A := 1) {} (crossings (2 ^ 64 - 1))
  rw [← hout, ht, htrades] at hexec
  have ht' : t = 2 ^ 64 - 1 := by simp only at hexec; omega
  rw [hout'] at heq
  have hpairs := congrArg executions (List.append_cancel_left heq)
  rw [hlegs, executions_append, executions_append, hbefore, hafter, executions_pairs, ht',
    List.nil_append, List.append_nil] at hpairs
  cases fills with
  | nil => cases hpairs
  | cons g fills =>
    rw [pairs, legs, legs, List.cons_append, List.cons.injEq] at hpairs
    have hmatch := hpairs.1
    simp [executed] at hmatch

end Wrap

end LowLevel.OrderBook
