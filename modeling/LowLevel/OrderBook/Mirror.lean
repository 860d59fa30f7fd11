import LowLevel.OrderBook.Keys

/-! # Buy/sell symmetry

Swapping the sides and reflecting the limit prices maps runs to runs: the
matcher treats the two sides alike, so a mirrored book selects the mirrored
order. The engine's two hand-written halves inherit the symmetry from it.
-/

namespace LowLevel.OrderBook

open DoublyLinked FlowGenerator Engine

variable {B A : ℕ} {s : Engine B A} {rs : List Resting} {free : List ℕ} {n : Indexed}
  {msgs : List InboundMessage} {m : Matching} {incoming r : SimOrder} {account : UInt32}
  {order : EnterRequestView}

def SideEnum.swap : SideEnum → SideEnum
  | .B => .S
  | .S => .B
  | side => side

/-- Reflect a limit price in the buffer; the market price stays. -/
def mirrorPrice (B p : ℕ) : ℕ := if p = MARKETPRICE then p else B - 1 - p

def EnterRequestView.mirror (B : ℕ) (order : EnterRequestView) : EnterRequestView :=
  { order with side := order.side.swap, price := mirrorPrice B order.price }

def InboundMessage.mirror (B : ℕ) (msg : InboundMessage) : InboundMessage :=
  match msg.message with
  | .enter order => { msg with message := .enter (order.mirror B) }
  | _ => msg

def OutboundMessage.mirror (B : ℕ) (o : OutboundMessage) : OutboundMessage :=
  match o.message with
  | .accept v =>
    { o with message := .accept { v with side := v.side.swap, price := mirrorPrice B v.price } }
  | .executed v => { o with message := .executed { v with price := mirrorPrice B v.price } }
  | _ => o

def SimOrder.mirror (B : ℕ) (o : SimOrder) : SimOrder :=
  { o with side := o.side.swap, price := mirrorPrice B o.price }

def Fill.mirror (B : ℕ) (f : Fill) : Fill := { f with resting := f.resting.mirror B }

def Matching.mirror (B : ℕ) (m : Matching) : Matching :=
  { m with
    openOrders := m.openOrders.map (SimOrder.mirror B)
    fills := m.fills.map (Fill.mirror B) }

def Indexed.mirror (B : ℕ) (n : Indexed) : Indexed :=
  { n with openOrders := n.openOrders.map (SimOrder.mirror B) }

def SimOrder.InBuffer (B : ℕ) (o : SimOrder) : Prop :=
  (o.side = .B ∨ o.side = .S) ∧ o.price < B

section Prices

variable (hB : B ≤ MARKETPRICE)

include hB

theorem mirrorPrice_of_lt {p : ℕ} (hp : p < B) : mirrorPrice B p = B - 1 - p := by
  rw [mirrorPrice, if_neg (by omega)]

theorem mirrorPrice_eq_market {p : ℕ} (hp : p < B ∨ p = MARKETPRICE) :
    mirrorPrice B p = MARKETPRICE ↔ p = MARKETPRICE := by
  unfold mirrorPrice
  split
  · rfl
  · omega

theorem beats_mirror {x y : SimOrder} (hside : incoming.side = .B ∨ incoming.side = .S)
    (hx : x.InBuffer B) (hy : y.InBuffer B) :
    (incoming.mirror B).beats (x.mirror B) (y.mirror B) = incoming.beats x y := by
  have hxp := hx.2
  have hyp := hy.2
  unfold SimOrder.beats SimOrder.mirror
  simp only [mirrorPrice_of_lt hB hxp, mirrorPrice_of_lt hB hyp]
  rcases hside with hs | hs
  · simp only [hs, SideEnum.swap, reduceCtorEq, if_true, if_false]
    congr 1 <;> apply decide_eq_decide.mpr <;> omega
  · simp only [hs, SideEnum.swap, reduceCtorEq, if_true, if_false]
    congr 1 <;> apply decide_eq_decide.mpr <;> omega

theorem reaches_mirror {x : SimOrder} (hside : incoming.side = .B ∨ incoming.side = .S)
    (hprice : incoming.price < B ∨ incoming.price = MARKETPRICE) (hx : x.InBuffer B) :
    (incoming.mirror B).reaches (x.mirror B) = incoming.reaches x := by
  obtain ⟨hxs, hxp⟩ := hx
  have hmarket := mirrorPrice_eq_market hB hprice
  unfold SimOrder.reaches SimOrder.mirror
  simp only [mirrorPrice_of_lt hB hxp, hmarket]
  have hlimit : incoming.price < B → mirrorPrice B incoming.price = B - 1 - incoming.price :=
    mirrorPrice_of_lt hB
  congr 1
  · rcases hside with hs | hs <;> rcases hxs with hs' | hs' <;> simp [hs, hs', SideEnum.swap]
  · rcases hside with hs | hs
    · simp only [hs, SideEnum.swap, reduceCtorEq, if_true, if_false]
      rw [decide_eq_decide]
      split
      · omega
      · rw [hlimit (by omega)]
        omega
    · simp only [hs, SideEnum.swap, reduceCtorEq, if_true, if_false]
      rw [decide_eq_decide]
      split
      · rename_i hm
        rw [hmarket.mpr hm]
        omega
      · rw [hlimit (by omega)]
        omega

theorem mirror_inj {x y : SimOrder} (hx : x.InBuffer B) (hy : y.InBuffer B)
    (h : x.mirror B = y.mirror B) : x = y := by
  obtain ⟨hxs, hxp⟩ := hx
  obtain ⟨hys, hyp⟩ := hy
  cases x
  cases y
  simp only [SimOrder.mirror, SimOrder.mk.injEq, mirrorPrice_of_lt hB hxp,
    mirrorPrice_of_lt hB hyp] at h hxs hys hxp hyp ⊢
  obtain ⟨hacc, href, hside, hprice, hqty, hseq⟩ := h
  refine ⟨hacc, href, ?_, by omega, hqty, hseq⟩
  rcases hxs with rfl | rfl <;> rcases hys with rfl | rfl <;> first | rfl | cases hside

end Prices

theorem SimOrder.InBuffer.same {x y : SimOrder} (h : x.InBuffer B) (hxy : x.Same y) :
    y.InBuffer B := by
  obtain ⟨q, rfl⟩ := hxy
  exact h

section Matching

variable (hB : B ≤ MARKETPRICE) (hside : incoming.side = .B ∨ incoming.side = .S)
  (hprice : incoming.price < B ∨ incoming.price = MARKETPRICE)

include hB hside hprice

theorem best_mirror {os : List SimOrder} (hos : ∀ o ∈ os, o.InBuffer B) :
    best SimOrder.reaches (incoming.mirror B) (os.map (SimOrder.mirror B)) =
      (best SimOrder.reaches incoming os).map (Prod.map id (SimOrder.mirror B)) :=
  scanBest_map (P := SimOrder.InBuffer B) (fun _ hx => reaches_mirror hB hside hprice hx)
    (fun _ _ hx hy => beats_mirror hB hside hx hy) hos 0 none (by simp)

omit hB hside hprice in
theorem trade_mirror (m : Matching) (i : ℕ) (r : SimOrder) :
    trade (m.mirror B) i (r.mirror B) = (trade m i r).mirror B := by
  simp only [trade, Matching.mirror, List.map_append, apply_ite (List.map (SimOrder.mirror B)),
    swapRemove_map, List.map_set]
  rfl

theorem matchLoop_mirror {fuel : ℕ} (hm : ∀ o ∈ m.openOrders, o.InBuffer B) :
    matchLoop SimOrder.reaches (incoming.mirror B) fuel (m.mirror B) =
      (matchLoop SimOrder.reaches incoming fuel m).mirror B := by
  induction fuel generalizing m with
  | zero => rfl
  | succ fuel ih =>
    have hqty : (m.mirror B).remainingQty = m.remainingQty := rfl
    have hbest : best SimOrder.reaches (incoming.mirror B) (m.mirror B).openOrders =
        (best SimOrder.reaches incoming m.openOrders).map (Prod.map id (SimOrder.mirror B)) :=
      best_mirror hB hside hprice hm
    unfold matchLoop
    rw [hqty, hbest]
    split
    · rfl
    · cases hc : best SimOrder.reaches incoming m.openOrders with
      | none => rfl
      | some b =>
        simp only [Option.map_some, Prod.map, id_eq, trade_mirror]
        apply ih
        intro o ho
        obtain ⟨o', ho', hsame⟩ := mem_trade (best_spec hc).1 ho
        exact (hm o' ho').same hsame

end Matching

section Answers

theorem fillMessages_mirror (account ref : UInt32) (t : ℕ) (fills : List Fill) :
    fillMessages account ref t (fills.map (Fill.mirror B)) =
      (fillMessages account ref t fills).map (OutboundMessage.mirror B) := by
  induction fills generalizing t with
  | nil => rfl
  | cons f fs ih =>
    rw [List.map_cons, fillMessages, fillMessages, List.map_append, ih]
    rfl

theorem remainderMessages_mirror (account ref : UInt32) (qty : ℕ) (rem : Remainder) :
    (remainderMessages account ref qty rem).map (OutboundMessage.mirror B) =
      remainderMessages account ref qty rem := by
  cases rem <;> rfl

theorem cancelMessages_mirror (account : UInt32) (found : Option SimOrder)
    (c : CancelRequestView) :
    Naive.cancelMessages account (found.map (SimOrder.mirror B)) c =
      (Naive.cancelMessages account found c).map (OutboundMessage.mirror B) := by
  cases found with
  | none => rfl
  | some o =>
    simp only [Naive.cancelMessages, Option.map_some, SimOrder.mirror]
    split <;> rfl

/-- Keys and quantities are not mirrored, so the same keys are forgotten. -/
theorem eraseFilled_mirror (index : UInt64 → Option ℕ) (fills : List Fill) :
    eraseFilled index (fills.map (Fill.mirror B)) = eraseFilled index fills := by
  unfold eraseFilled
  rw [List.foldl_map]
  rfl

theorem remainder_mirror (hB : B ≤ MARKETPRICE)
    (hprice : order.price < B ∨ order.price = MARKETPRICE) :
    remainder A (order.mirror B) (m.mirror B) = remainder A order m := by
  simp only [remainder, Matching.mirror, List.length_map, EnterRequestView.mirror,
    mirrorPrice_eq_market hB hprice]

end Answers

section Enter

variable (hB : B ≤ MARKETPRICE) (hside : order.side = .B ∨ order.side = .S)
  (hprice : order.price < B ∨ order.price = MARKETPRICE)
  (hn : ∀ o ∈ n.openOrders, o.InBuffer B)

include hB hside hprice hn

theorem matching_mirror :
    (n.mirror B).matching SimOrder.reaches account (order.mirror B) =
      (n.matching SimOrder.reaches account order).mirror B := by
  unfold Naive.matching applyEnter
  rw [← matchLoop_mirror hB hside hprice hn]
  simp only [Indexed.mirror, List.length_map]
  rfl

theorem enter_mirror :
    (n.mirror B).enter SimOrder.reaches A account (order.mirror B) =
      ((n.process A ⟨account, .enter order⟩).1.mirror B).toNaive := by
  simp only [Naive.enter, matching_mirror hB hside hprice hn, remainder_mirror hB hprice]
  simp only [Indexed.process, Indexed.mirror, Matching.mirror, Naive.enter, List.length_map,
    apply_ite (List.map (SimOrder.mirror B)), List.map_append]
  rfl

theorem enterIndex_mirror :
    (n.mirror B).enterIndex A account (order.mirror B) = n.enterIndex A account order := by
  simp only [Indexed.enterIndex, matching_mirror hB hside hprice hn, remainder_mirror hB hprice]
  simp only [Indexed.mirror, Matching.mirror, eraseFilled_mirror]
  rfl

theorem enterMessages_mirror :
    (n.mirror B).enterMessages SimOrder.reaches A account (order.mirror B) =
      (n.enterMessages SimOrder.reaches A account order).map (OutboundMessage.mirror B) := by
  unfold Naive.enterMessages Naive.outcome
  simp only [matching_mirror hB hside hprice hn, remainder_mirror hB hprice, List.map_cons,
    List.map_append, remainderMessages_mirror, ← fillMessages_mirror]
  rfl

end Enter

section Cancel

variable (hB : B ≤ MARKETPRICE) (hn : ∀ o ∈ n.openOrders, o.InBuffer B)

omit hB hn in
theorem find_mirror (key : UInt64) :
    (n.mirror B).find key = (n.find key).map (SimOrder.mirror B) := by
  unfold Indexed.find
  simp only [Indexed.mirror, List.find?_map, Option.map_bind]
  rfl

include hB

theorem idxOf_mirror {os : List SimOrder} (hos : ∀ o ∈ os, o.InBuffer B) {o : SimOrder}
    (ho : o ∈ os) : (os.map (SimOrder.mirror B)).idxOf (o.mirror B) = os.idxOf o := by
  induction os with
  | nil => cases ho
  | cons x os ih =>
    have hx := hos x (by simp)
    rcases List.mem_cons.mp ho with rfl | hmem
    · simp
    · by_cases hxo : x = o
      · simp [hxo]
      · have hne : x.mirror B ≠ o.mirror B := fun h => hxo (mirror_inj hB hx (hos o ho) h)
        rw [List.map_cons, List.idxOf_cons_ne _ hne, List.idxOf_cons_ne _ hxo,
          ih (fun y hy => hos y (List.mem_cons_of_mem _ hy)) hmem]

theorem reduce_mirror {os : List SimOrder} (hos : ∀ o ∈ os, o.InBuffer B) {o : SimOrder}
    (ho : o ∈ os) (q : ℕ) :
    reduce (os.map (SimOrder.mirror B)) (o.mirror B) q =
      (reduce os o q).map (SimOrder.mirror B) := by
  simp only [reduce, idxOf_mirror hB hos ho, swapRemove_map,
    apply_ite (List.map (SimOrder.mirror B)), List.map_set]
  rfl

include hn

theorem cancel_mirror {found : Option SimOrder} (hfound : ∀ o, found = some o → o ∈ n.openOrders)
    (c : CancelRequestView) :
    (n.mirror B).cancel (found.map (SimOrder.mirror B)) c =
      (Indexed.mirror B ⟨n.toNaive.cancel found c, n.cancelIndex found c⟩).toNaive := by
  cases found with
  | none => rfl
  | some o =>
    have hreduce := reduce_mirror hB hn (hfound o rfl) c.quantity
    simp only [Naive.cancel, Option.map_some]
    change (if o.remainingQty ≤ c.quantity then _ else _) = _
    split
    · simp [Indexed.mirror, *]
    · simp [Indexed.mirror, *]

omit hB hn in
theorem cancelIndex_mirror (found : Option SimOrder) (c : CancelRequestView) :
    (n.mirror B).cancelIndex (found.map (SimOrder.mirror B)) c = n.cancelIndex found c := by
  cases found <;> rfl

end Cancel

theorem mirror_admissible {msg : InboundMessage} (hB : B ≤ MARKETPRICE) (h : Admissible B msg) :
    Admissible B (msg.mirror B) := by
  unfold Admissible InboundMessage.mirror at *
  cases hm : msg.message with
  | enter order =>
    rw [hm] at h
    obtain ⟨hside, hprice⟩ := h
    constructor
    · rcases hside with hs | hs
      · exact .inr (by simp [EnterRequestView.mirror, hs, SideEnum.swap])
      · exact .inl (by simp [EnterRequestView.mirror, hs, SideEnum.swap])
    · rcases hprice with hp | hp
      · have := mirrorPrice_of_lt hB hp
        exact .inl (by change mirrorPrice B order.price < B; omega)
      · exact .inr ((mirrorPrice_eq_market hB (.inr hp)).mpr hp)
  | cancel c => simp [hm]
  | _ => rw [hm] at h; exact h.elim

theorem process_mirror {msg : InboundMessage} (hB : B ≤ MARKETPRICE) (h : Admissible B msg)
    (hn : ∀ o ∈ n.openOrders, o.InBuffer B) :
    (n.mirror B).process A (msg.mirror B) =
      ((n.process A msg).1.mirror B, (n.process A msg).2.map (OutboundMessage.mirror B)) := by
  obtain ⟨account, message⟩ := msg
  cases message with
  | enter order =>
    obtain ⟨hside, hprice⟩ := h
    simp only [InboundMessage.mirror, Indexed.process, enter_mirror hB hside hprice hn,
      enterIndex_mirror hB hside hprice hn, enterMessages_mirror hB hside hprice hn]
    rfl
  | cancel c =>
    have hfound : ∀ o, n.find (orderKey account c.userRefNum) = some o → o ∈ n.openOrders :=
      fun o => Indexed.mem_of_find
    simp only [InboundMessage.mirror, Indexed.process, find_mirror, cancel_mirror hB hn hfound,
      cancelIndex_mirror, cancelMessages_mirror]
    rfl
  | _ => exact h.elim

theorem Agrees.inBuffer (h : Agrees s n rs free) : ∀ o ∈ n.openOrders, o.InBuffer B := by
  intro o ho
  obtain ⟨r, hr, rfl⟩ := List.mem_map.mp (h.orders.mem_iff.mp ho)
  exact ⟨h.book.side r hr, h.book.rep.price_lt r hr⟩

theorem answers_mirror (hB : B ≤ MARKETPRICE) (h : Agrees s n rs free)
    (hmsgs : ∀ m ∈ msgs, Admissible B m) :
    (n.mirror B).outputs A (msgs.map (InboundMessage.mirror B)) =
      (n.outputs A msgs).map (List.map (OutboundMessage.mirror B)) := by
  induction msgs generalizing s n rs free with
  | nil => rfl
  | cons m msgs ih =>
    have hm := hmsgs m (by simp)
    obtain ⟨s', rs', free', -, h', -⟩ := process_run m h hm
    rw [List.map_cons, Indexed.outputs, Indexed.outputs, process_mirror hB hm h.inBuffer,
      List.map_cons, ih h' fun x hx => hmsgs x (List.mem_cons_of_mem _ hx)]

/-- A run on the mirrored messages answers with the mirrored messages. -/
theorem outputs_mirror (hB : B ≤ MARKETPRICE) (hA : 0 < A) (hmsgs : ∀ m ∈ msgs, Admissible B m) :
    ∃ outs, outputs ({} : Engine B A) msgs = .ok outs ∧
      outputs ({} : Engine B A) (msgs.map (InboundMessage.mirror B)) =
        .ok (outs.map (List.map (OutboundMessage.mirror B))) := by
  have hmirror : ∀ m ∈ msgs.map (InboundMessage.mirror B), Admissible B m := by
    simp only [List.forall_mem_map]
    exact fun m hm => mirror_admissible hB (hmsgs m hm)
  obtain ⟨-, -, -, -, -, -, houts⟩ := run_agrees hA hmsgs
  obtain ⟨-, -, -, -, -, -, houts'⟩ := run_agrees hA hmirror
  refine ⟨_, houts, houts'.trans (congrArg Except.ok ?_)⟩
  exact answers_mirror hB (agrees_init hA) hmsgs

/-- A bid at the lowest price and a market sell, against their mirror images. -/
theorem outputs_mirror_marketSell : ∃ outs,
    outputs ({} : Engine 3 1) [enterMessage 1 1 .B 5 0, enterMessage 2 1 .S 8 MARKETPRICE] =
      .ok outs ∧
    outputs ({} : Engine 3 1) ([enterMessage 1 1 .B 5 0, enterMessage 2 1 .S 8 MARKETPRICE].map
      (InboundMessage.mirror 3)) = .ok (outs.map (List.map (OutboundMessage.mirror 3))) :=
  outputs_mirror (by decide) (by decide) (by decide)

end LowLevel.OrderBook
