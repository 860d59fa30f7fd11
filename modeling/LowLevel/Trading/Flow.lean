import LowLevel.OrderBook.Conservation
import LowLevel.Trading.FlowGenerator
import LowLevel.Trading.Exchange

/-! # The generated flow against the engine

The open orders of the generator are those of the engine after every message of
a generated flow. Every request is served: an order is accepted first, and a
cancel takes a resting order off the book. The book is warmed without a trade.
-/

namespace LowLevel.Trading.FlowGenerator

open OrderBook (Engine Indexed Agrees Admissible ExactIndex SimOrder SideEnum MARKETPRICE orderKey)
open Exchange (wanted Whole Serviceable)

section Bytes

variable {account userRefNum : UInt32} {side : SideEnum} {price qty : ℕ}

def ofEnter (f : Wire.EnterRequest) : OrderBook.EnterRequestView where
  userRefNum := f.userRefNum
  side := f.side
  quantity := f.quantity.toNat
  symbol := f.symbol
  price := f.price.toNat
  timeInForce := f.timeInForce
  display := f.display
  capacity := f.capacity
  interMarketSweepElig := f.interMarketSweepElig
  crossType := f.crossType
  clOrdID := f.clOrdID
  appendageLength := f.appendageLength

def enterOrder (side : SideEnum) (userRefNum : UInt32) (price qty : ℕ) :
    OrderBook.EnterRequestView :=
  { ofEnter Wire.enterRequest.unset with
    userRefNum, side, quantity := qty, symbol := Wire.padded 8 [65, 65, 80, 76], price }

theorem front_toList {w : ℕ} (b : Vector UInt8 w) : Exchange.front ⟨account, b.toList⟩ w = b := by
  apply Vector.ext
  intro i hi
  simp [Exchange.front]

theorem enterFields_eq (v : Wire.EnterRequestView) : enterFields v = ofEnter v.fields := rfl

theorem head_toList {w : ℕ} {b : Vector UInt8 w} {type : UInt8} (hw : 0 < w)
    (hb : window b 0 0 = type) : b.toList.head? = some type := by
  obtain ⟨tl, htl⟩ := Wire.toList_eq_cons hw hb
  rw [htl]
  rfl

theorem wanted_enter {b : Vector UInt8 Wire.EnterRequestView.WIRE_SIZE}
    (hb : window b 0 0 = Wire.EnterRequestView.TYPE) :
    wanted ⟨account, b.toList⟩ =
      some ⟨account, .enter (ofEnter (Wire.EnterRequestView.fields ⟨b⟩))⟩ := by
  have hrequest := Exchange.request_enter ⟨account, b.toList⟩ (.replicate _ 0)
    (head_toList (by decide) hb) Vector.length_toList
  rw [front_toList] at hrequest
  rw [wanted, asked, hrequest, enterFields_eq]
  rfl

theorem wanted_cancel {b : Vector UInt8 Wire.CancelRequestView.WIRE_SIZE}
    (hb : window b 0 0 = Wire.CancelRequestView.TYPE) :
    wanted ⟨account, b.toList⟩ = some ⟨account, .cancel (cancelFields ⟨b⟩)⟩ := by
  have hrequest := Exchange.request_cancel ⟨account, b.toList⟩ (.replicate _ 0)
    (head_toList (by decide) hb) Vector.length_toList
  rw [front_toList] at hrequest
  rw [wanted, asked, hrequest]
  rfl

theorem whole_enter {b : Vector UInt8 Wire.EnterRequestView.WIRE_SIZE}
    (hb : window b 0 0 = Wire.EnterRequestView.TYPE) : Whole ⟨account, b.toList⟩ :=
  Or.inl ⟨head_toList (by decide) hb, Vector.length_toList⟩

theorem whole_cancel {b : Vector UInt8 Wire.CancelRequestView.WIRE_SIZE}
    (hb : window b 0 0 = Wire.CancelRequestView.TYPE) : Whole ⟨account, b.toList⟩ :=
  Or.inr ⟨head_toList (by decide) hb, Vector.length_toList⟩

theorem whole_enterBytes : Whole ⟨account, enterBytes side userRefNum price qty⟩ :=
  whole_enter (Wire.enterRequest_roundTrips.type_build _)

theorem whole_cancelBytes : Whole ⟨account, cancelBytes userRefNum⟩ :=
  whole_cancel (Wire.cancelRequest_roundTrips.type_build _)

theorem wanted_enterBytes (hprice : price < 2 ^ 64) (hqty : qty < 2 ^ 32) :
    wanted ⟨account, enterBytes side userRefNum price qty⟩ =
      some ⟨account, .enter (enterOrder side userRefNum price qty)⟩ := by
  have hfields : Wire.EnterRequestView.fields ⟨_⟩ = _ :=
    Wire.enterRequest_roundTrips.fields_build [.side side, .userRefNum userRefNum,
      .symbol [65, 65, 80, 76], .price (.ofNat price), .quantity (.ofNat qty)]
  have horder : ofEnter (List.foldl Wire.enterRequest.set Wire.enterRequest.unset
      [.side side, .userRefNum userRefNum, .symbol [65, 65, 80, 76], .price (.ofNat price),
        .quantity (.ofNat qty)]) = enterOrder side userRefNum price qty := by
    change OrderBook.EnterRequestView.mk .. = OrderBook.EnterRequestView.mk ..
    congr 1
    · exact UInt32.toNat_ofNat_of_lt hqty
    · exact UInt64.toNat_ofNat_of_lt hprice
  rw [← horder]
  exact (wanted_enter (Wire.enterRequest_roundTrips.type_build _)).trans
    (congrArg (fun f => some (OrderBook.InboundMessage.mk account (.enter (ofEnter f)))) hfields)

theorem wanted_cancelBytes : wanted ⟨account, cancelBytes userRefNum⟩ =
    some (OrderBook.cancelMessage account userRefNum 0) := by
  have hfields : Wire.CancelRequestView.fields ⟨_⟩ = _ :=
    Wire.cancelRequest_roundTrips.fields_build [.userRefNum userRefNum, .quantity 0]
  exact (wanted_cancel (Wire.cancelRequest_roundTrips.type_build _)).trans
    (congrArg (fun f : Wire.CancelRequest => some (OrderBook.InboundMessage.mk account
      (.cancel { userRefNum := f.userRefNum, quantity := f.quantity.toNat }))) hfields)

end Bytes

section Follows

variable {B A : ℕ} {g : FlowGenerator} {reqs : List OrderBook.InboundMessage}

def Named (g : FlowGenerator) (account userRefNum : UInt32) : Prop :=
  account.toNat < CLIENT_NO ∧ userRefNum < g.seqCounter account.toNat

/-- An answer given in the past: it names an order that was entered, it is not a reject, and an
order that was taken off the book is not open. -/
def Past (g : FlowGenerator) (answer : OrderBook.OutboundMessage) : Prop :=
  match answer.message with
  | .accept v => Named g answer.account v.userRefNum
  | .executed v => Named g answer.account v.userRefNum
  | .cancelled v => Named g answer.account v.userRefNum ∧
      ∀ o ∈ g.openOrders, o.key ≠ orderKey answer.account v.userRefNum
  | _ => False

/-- An order is accepted first; trades follow, and of a market order the rest is cancelled. A
cancel takes what is left of an order off the book. -/
def Acked (msg : OrderBook.InboundMessage) (answers : List OrderBook.OutboundMessage) : Prop :=
  match msg.message with
  | .enter order => ∃ id later, answers = ⟨msg.account, Engine.accepted order id⟩ :: later ∧
      ∀ a ∈ later, a.isExecuted = true ∨ order.price = MARKETPRICE ∧
        ∃ qty, a = OrderBook.cancelled msg.account order.userRefNum qty 'I'
  | .cancel c => ∃ qty, 0 < qty ∧
      answers = [OrderBook.cancelled msg.account c.userRefNum qty 'U']
  | _ => False

/-- An answer that a client would take for the one to a request. -/
def TakenFor (msg : OrderBook.InboundMessage) (answer : OrderBook.OutboundMessage) : Prop :=
  answer.account = msg.account ∧
    match msg.message, answer.message with
    | .enter order, .accept v => v.userRefNum = order.userRefNum
    | .cancel c, .cancelled v => v.userRefNum = c.userRefNum
    | .cancel c, .cancelReject v => v.userRefNum = c.userRefNum
    | _, _ => False

/-- The open orders of the generator are those of the engine after the requests. -/
structure Follows (B A : ℕ) (reqs : List OrderBook.InboundMessage) (g : FlowGenerator) :
    Prop where
  admissible : ∀ m ∈ reqs, Admissible B m
  openOrders : (Indexed.run A {} reqs).openOrders = g.openOrders
  arrivals : (Indexed.run A {} reqs).nextArrivalSequence = g.nextArrivalSequence
  exact : ExactIndex (Indexed.run A {} reqs).index g.openOrders
  named : ∀ o ∈ g.openOrders, Named g o.account o.userRefNum
  counters : ∀ client, (g.seqCounter client).toNat ≤ g.nextArrivalSequence
  room : g.openOrders.length ≤ g.nextArrivalSequence
  past : ∀ a ∈ (Indexed.outputs A {} reqs).flatten, Past g a
  acked : List.Forall₂ Acked reqs (Indexed.outputs A {} reqs)
  unmistaken : ∀ pre msg, pre ++ [msg] <+: reqs →
    ∀ a ∈ (Indexed.outputs A {} pre).flatten, ¬ TakenFor msg a

theorem follows_init (rng : List ℕ) : Follows B A [] { rng } := by
  constructor
  case admissible =>
    rintro m ⟨⟩
  case openOrders => rfl
  case arrivals => rfl
  case exact => exact OrderBook.exactIndex_init
  case named =>
    rintro o ⟨⟩
  case counters => exact fun _ => Nat.le_refl 0
  case room => exact Nat.le_refl 0
  case past =>
    rintro a ⟨⟩
  case acked => exact .nil
  case unmistaken =>
    intro pre msg hpre
    exact absurd (List.prefix_nil.mp hpre) (by simp)

theorem run_snoc (n : Indexed) (reqs : List OrderBook.InboundMessage)
    (msg : OrderBook.InboundMessage) :
    n.run A (reqs ++ [msg]) = ((n.run A reqs).process A msg).1 := by
  rw [Indexed.run, List.foldl_append]
  rfl

theorem outputs_snoc (n : Indexed) (reqs : List OrderBook.InboundMessage)
    (msg : OrderBook.InboundMessage) :
    n.outputs A (reqs ++ [msg]) = n.outputs A reqs ++ [((n.run A reqs).process A msg).2] :=
  OrderBook.outputs_append n reqs [msg]

theorem Follows.agrees (h : Follows B A reqs g) (hA : 0 < A) :
    ∃ (s : Engine B A) (rs : List OrderBook.Resting) (free : List ℕ),
      Agrees s (Indexed.run A {} reqs) rs free := by
  obtain ⟨s, rs, free, -, hagrees, -⟩ := OrderBook.run_agrees hA h.admissible
  exact ⟨s, rs, free, hagrees⟩

theorem Follows.mem_openOrders (h : Follows B A reqs g) (hA : 0 < A) {o : SimOrder}
    (ho : o ∈ g.openOrders) : o.price < B ∧ 0 < o.remainingQty := by
  obtain ⟨s, rs, free, hagrees⟩ := h.agrees hA
  rw [← h.openOrders] at ho
  obtain ⟨r, hr, rfl⟩ := List.mem_map.mp (hagrees.orders.mem_iff.mp ho)
  exact ⟨hagrees.book.rep.price_lt r hr, hagrees.book.qty_pos r hr⟩

theorem Follows.snoc {g' : FlowGenerator} {msg : OrderBook.InboundMessage}
    (h : Follows B A reqs g) (hmsg : Admissible B msg)
    (hopen : ((Indexed.run A {} reqs).process A msg).1.openOrders = g'.openOrders)
    (harrivals : ((Indexed.run A {} reqs).process A msg).1.nextArrivalSequence =
      g'.nextArrivalSequence)
    (hfresh : ∀ order, msg.message = .enter order →
      ∀ o ∈ g.openOrders, o.key ≠ orderKey msg.account order.userRefNum)
    (hnamed : ∀ o ∈ g'.openOrders, Named g' o.account o.userRefNum)
    (hcounters : ∀ client, (g'.seqCounter client).toNat ≤ g'.nextArrivalSequence)
    (hroom : g'.openOrders.length ≤ g'.nextArrivalSequence)
    (hpast : ∀ a, Past g a → Past g' a)
    (hnew : ∀ a ∈ ((Indexed.run A {} reqs).process A msg).2, Past g' a)
    (hacked : Acked msg ((Indexed.run A {} reqs).process A msg).2)
    (hunmistaken : ∀ a, Past g a → ¬ TakenFor msg a) :
    Follows B A (reqs ++ [msg]) g' := by
  have hexact := h.exact
  rw [← h.openOrders] at hexact hfresh
  constructor
  case admissible =>
    intro m hm
    rcases List.mem_append.mp hm with hm | hm
    · exact h.admissible m hm
    · exact List.mem_singleton.mp hm ▸ hmsg
  case openOrders =>
    rw [run_snoc]
    exact hopen
  case arrivals =>
    rw [run_snoc]
    exact harrivals
  case exact =>
    rw [run_snoc, ← hopen]
    exact hexact.process hfresh
  case named => exact hnamed
  case counters => exact hcounters
  case room => exact hroom
  case past =>
    intro a ha
    rw [outputs_snoc, List.flatten_append, List.mem_append] at ha
    rcases ha with ha | ha
    · exact hpast a (h.past a ha)
    · rw [List.flatten_singleton] at ha
      exact hnew a ha
  case acked =>
    rw [outputs_snoc]
    exact List.rel_append h.acked (.cons hacked .nil)
  case unmistaken =>
    intro pre msg' hpre a ha
    rcases List.prefix_concat_iff.mp hpre with hlast | hpre
    · obtain ⟨rfl, hmsg'⟩ := List.append_inj' hlast rfl
      obtain rfl := List.singleton_inj.mp hmsg'
      exact hunmistaken a (h.past a ha)
    · exact h.unmistaken pre msg' hpre a ha

/-- The generator after an order, whatever was drawn for it. -/
def entered (g : FlowGenerator) (client : ℕ) (side : SideEnum) (price qty : ℕ) : FlowGenerator :=
  { g with
    seqCounter := Function.update g.seqCounter client (g.seqCounter client + 1)
    nextArrivalSequence := g.nextArrivalSequence + 1 }.applyEnter
      ⟨.ofNat client, g.seqCounter client, side, price, qty, g.nextArrivalSequence⟩

section Enter

variable {client price qty : ℕ} {side : SideEnum}

theorem length_matchLoop_le {rule : SimOrder → SimOrder → Bool} {incoming : SimOrder} {fuel : ℕ}
    (m : OrderBook.Matching) :
    (OrderBook.FlowGenerator.matchLoop rule incoming fuel m).openOrders.length ≤
      m.openOrders.length := by
  apply OrderBook.matchLoop_invariant (P := fun m' => m'.openOrders.length ≤ m.openOrders.length)
  · intro m' i r hle _ hbest
    obtain ⟨os, hos, htrade⟩ := OrderBook.trade_perm (OrderBook.best_spec hbest).1
    have hlen := hos.length_eq
    have hlen' := htrade.length_eq
    have hleft : (OrderBook.leftover m' r).length ≤ 1 := by
      unfold OrderBook.leftover
      split <;> simp
    rw [List.length_append] at hlen'
    rw [List.length_cons] at hlen
    omega
  · exact Nat.le_refl _

theorem remainder_of_room {order : OrderBook.EnterRequestView} {m : OrderBook.Matching}
    (hroom : m.openOrders.length < A) :
    OrderBook.remainder A order m = if m.remainingQty = 0 then .none
      else if order.price = MARKETPRICE then .cancelled 'I' else .rested := by
  unfold OrderBook.remainder
  rw [if_neg (Nat.not_le_of_lt hroom)]

theorem rested_iff {order : OrderBook.EnterRequestView} {m : OrderBook.Matching}
    (hroom : m.openOrders.length < A) :
    OrderBook.remainder A order m = .rested ↔ 0 < m.remainingQty ∧ order.price ≠ MARKETPRICE := by
  rw [remainder_of_room hroom, Nat.pos_iff_ne_zero]
  by_cases hrest : m.remainingQty = 0
  · simp [hrest]
  · by_cases hmarket : order.price = MARKETPRICE <;> simp [hrest, hmarket]

theorem mem_executed {account userRefNum : UInt32} {t : ℕ} {fills : List OrderBook.Fill}
    {a : OrderBook.OutboundMessage}
    (ha : a ∈ OrderBook.fillMessages account userRefNum t fills) :
    ∃ account' ref qty price flag number,
      a = OrderBook.executed account' ref qty price flag number ∧
        (account' = account ∧ ref = userRefNum ∨
          ∃ f ∈ fills, account' = f.resting.account ∧ ref = f.resting.userRefNum) := by
  induction fills generalizing t with
  | nil => cases ha
  | cons f fills ih =>
    rcases List.mem_append.mp ha with ha | ha
    · rcases List.mem_pair.mp ha with rfl | rfl
      · exact ⟨_, _, _, _, _, _, rfl, Or.inl ⟨rfl, rfl⟩⟩
      · exact ⟨_, _, _, _, _, _, rfl, Or.inr ⟨f, List.mem_cons_self .., rfl, rfl⟩⟩
    · obtain ⟨account', ref, qty, price, flag, number, rfl, hnames⟩ := ih ha
      refine ⟨_, _, _, _, _, _, rfl, hnames.imp_right ?_⟩
      rintro ⟨f', hf', hnames⟩
      exact ⟨f', List.mem_cons_of_mem _ hf', hnames⟩

theorem mem_entered {o : SimOrder} (ho : o ∈ (entered g client side price qty).openOrders) :
    (∃ o' ∈ g.openOrders, o'.Same o) ∨ price ≠ MARKETPRICE ∧
      SimOrder.Same ⟨.ofNat client, g.seqCounter client, side, price, qty,
        g.nextArrivalSequence⟩ o := by
  change o ∈ ite _ _ _ at ho
  split at ho
  · next hrests =>
    rcases List.mem_append.mp ho with ho | ho
    · exact Or.inl (OrderBook.mem_matchLoop ho)
    · rw [List.mem_singleton.mp ho]
      exact Or.inr ⟨hrests.2, _, rfl⟩
  · exact Or.inl (OrderBook.mem_matchLoop ho)

variable (g client price qty side) in
theorem length_entered_le :
    (entered g client side price qty).openOrders.length ≤ g.openOrders.length + 1 := by
  change List.length (ite _ _ _) ≤ _
  unfold OrderBook.FlowGenerator.applyEnter
  split
  · rw [List.length_append, List.length_singleton]
    exact Nat.succ_le_succ (length_matchLoop_le _)
  · exact Nat.le_succ_of_le (length_matchLoop_le _)

theorem toNat_client (hclient : client < CLIENT_NO) : (UInt32.ofNat client).toNat = client :=
  UInt32.toNat_ofNat_of_lt (Nat.lt_trans hclient (by decide))

variable (price qty side) in
/-- Numbers that were given out stay so, and the new one is among them. -/
theorem named_entered (hclient : client < CLIENT_NO)
    (hsmall : (g.seqCounter client).toNat + 1 < 2 ^ 32) (account userRefNum : UInt32) :
    Named (entered g client side price qty) account userRefNum ↔
      Named g account userRefNum ∨ account = .ofNat client ∧ userRefNum = g.seqCounter client := by
  have hnext : (g.seqCounter client + 1).toNat = (g.seqCounter client).toNat + 1 := by
    rw [UInt32.toNat_add]
    exact Nat.mod_eq_of_lt hsmall
  change _ ∧ userRefNum < Function.update g.seqCounter client (g.seqCounter client + 1)
    account.toNat ↔ _
  unfold Named
  by_cases hsame : account.toNat = client
  · obtain rfl : account = .ofNat client := by
      rw [← hsame, UInt32.ofNat_toNat]
    have hlast : userRefNum = g.seqCounter client ↔
        userRefNum.toNat = (g.seqCounter client).toNat := UInt32.toNat_inj.symm
    rw [toNat_client hclient, Function.update_self, UInt32.lt_iff_toNat_lt, hnext,
      UInt32.lt_iff_toNat_lt, hlast, eq_self_iff_true, true_and]
    omega
  · rw [Function.update_of_ne hsame]
    constructor
    · exact Or.inl
    · rintro (hnamed | ⟨rfl, -⟩)
      · exact hnamed
      · exact absurd (toNat_client hclient) hsame

theorem Past.entered {a : OrderBook.OutboundMessage} (hclient : client < CLIENT_NO)
    (hsmall : (g.seqCounter client).toNat + 1 < 2 ^ 32) (ha : Past g a) :
    Past (entered g client side price qty) a := by
  have hnamed : ∀ {ref}, Named g a.account ref →
      Named (FlowGenerator.entered g client side price qty) a.account ref :=
    fun hnamed => (named_entered price qty side hclient hsmall _ _).mpr (Or.inl hnamed)
  unfold Past at ha ⊢
  split at ha
  · exact hnamed ha
  · exact hnamed ha
  · next v _ =>
    refine ⟨hnamed ha.1, ?_⟩
    intro o ho hkey
    rcases mem_entered ho with ⟨o', ho', q, rfl⟩ | ⟨-, q, rfl⟩
    · exact ha.2 o' ho' hkey
    · obtain ⟨haccount, href⟩ := OrderBook.orderKey_inj.mp hkey
      have hlt := ha.1.2
      rw [← haccount, ← href, toNat_client hclient] at hlt
      exact UInt32.lt_irrefl _ hlt
  · exact ha.elim

theorem fresh_of_named (hclient : client < CLIENT_NO)
    (hnamed : ∀ o ∈ g.openOrders, Named g o.account o.userRefNum) :
    ∀ o ∈ g.openOrders, o.key ≠ orderKey (.ofNat client) (g.seqCounter client) := by
  intro o ho hkey
  obtain ⟨haccount, href⟩ := OrderBook.orderKey_inj.mp hkey
  have hlt := (hnamed o ho).2
  rw [haccount, href, toNat_client hclient] at hlt
  exact UInt32.lt_irrefl _ hlt

theorem Follows.matching_eq (h : Follows B A reqs g) (hA : 0 < A) (hB : B ≤ MARKETPRICE) :
    (Indexed.run A {} reqs).matching SimOrder.reaches (.ofNat client)
        (enterOrder side (g.seqCounter client) price qty) =
      OrderBook.FlowGenerator.applyEnter SimOrder.crosses ⟨.ofNat client, g.seqCounter client,
        side, price, qty, g.nextArrivalSequence⟩ g.openOrders := by
  rw [← OrderBook.matching_crosses]
  · rw [← h.openOrders, ← h.arrivals]
    rfl
  · intro o ho
    rw [h.openOrders] at ho
    exact Nat.le_trans (Nat.le_of_lt (h.mem_openOrders hA ho).1) hB

variable (client price qty side) in
theorem Follows.length_matching_le (h : Follows B A reqs g) (hA : 0 < A) (hB : B ≤ MARKETPRICE) :
    ((Indexed.run A {} reqs).matching SimOrder.reaches (.ofNat client)
      (enterOrder side (g.seqCounter client) price qty)).openOrders.length ≤
        g.openOrders.length := by
  rw [h.matching_eq hA hB]
  exact length_matchLoop_le _

theorem Follows.enter_openOrders (h : Follows B A reqs g) (hA : 0 < A) (hB : B ≤ MARKETPRICE)
    (hroom : g.nextArrivalSequence < A) :
    ((Indexed.run A {} reqs).process A ⟨.ofNat client,
      .enter (enterOrder side (g.seqCounter client) price qty)⟩).1.openOrders =
        (entered g client side price qty).openOrders := by
  have hlen := h.length_matching_le client price qty side hA hB
  have hopen := h.room
  rw [h.matching_eq hA hB] at hlen
  change ite _ _ _ = ite _ _ _
  rw [h.matching_eq hA hB]
  simp only [OrderBook.Naive.incoming, h.arrivals]
  exact if_congr (rested_iff (by omega)) rfl rfl

variable (client price qty side) in
/-- What is answered to an order: its acceptance, trades with orders that were open, and the
cancellation of a market order. -/
theorem Follows.enter_answers (h : Follows B A reqs g) (hA : 0 < A) (hB : B ≤ MARKETPRICE)
    (hroom : g.nextArrivalSequence < A) :
    ∃ id later, ((Indexed.run A {} reqs).process A ⟨.ofNat client,
        .enter (enterOrder side (g.seqCounter client) price qty)⟩).2 =
          ⟨.ofNat client, Engine.accepted
            (enterOrder side (g.seqCounter client) price qty) id⟩ :: later ∧
      ∀ a ∈ later,
        (∃ account ref qty' price' flag number,
          a = OrderBook.executed account ref qty' price' flag number ∧
            (account = .ofNat client ∧ ref = g.seqCounter client ∨
              ∃ o ∈ g.openOrders, account = o.account ∧ ref = o.userRefNum)) ∨
        price = MARKETPRICE ∧ ∃ qty',
          a = OrderBook.cancelled (.ofNat client) (g.seqCounter client) qty' 'I' := by
  refine ⟨_, _, rfl, ?_⟩
  intro a ha
  rcases List.mem_append.mp ha with ha | ha
  · left
    obtain ⟨account, ref, qty', price', flag, number, rfl, hnames⟩ := mem_executed ha
    refine ⟨_, _, _, _, _, _, rfl, ?_⟩
    rcases hnames with hnames | ⟨f, hf, rfl, rfl⟩
    · exact Or.inl hnames
    · obtain ⟨o, ho, q, hq⟩ := OrderBook.mem_fills hf
      rw [h.openOrders] at ho
      rw [hq]
      exact Or.inr ⟨o, ho, rfl, rfl⟩
  · right
    have hlen := h.length_matching_le client price qty side hA hB
    have hopen := h.room
    rw [remainder_of_room (Nat.lt_of_le_of_lt hlen (by omega))] at ha
    split at ha
    · cases ha
    · split at ha
      · next hmarket => exact ⟨hmarket, _, List.mem_singleton.mp ha⟩
      · cases ha

theorem Follows.enter_past (h : Follows B A reqs g) (hA : 0 < A) (hB : B ≤ MARKETPRICE)
    (hclient : client < CLIENT_NO) (hroom : g.nextArrivalSequence < A)
    (hnext : (g.seqCounter client).toNat + 1 < 2 ^ 32) :
    ∀ a ∈ ((Indexed.run A {} reqs).process A ⟨.ofNat client,
        .enter (enterOrder side (g.seqCounter client) price qty)⟩).2,
      Past (entered g client side price qty) a := by
  have hnamed := named_entered price qty side hclient hnext
  obtain ⟨id, later, hanswers, hlater⟩ := h.enter_answers client price qty side hA hB hroom
  rw [hanswers]
  intro a ha
  rcases List.mem_cons.mp ha with rfl | ha
  · exact (hnamed _ _).mpr (Or.inr ⟨rfl, rfl⟩)
  · rcases hlater a ha with ⟨account, ref, qty', price', flag, number, rfl, hnames⟩ |
      ⟨hmarket, qty', rfl⟩
    · apply (hnamed _ _).mpr
      rcases hnames with hnames | ⟨o, ho, rfl, rfl⟩
      · exact Or.inr hnames
      · exact Or.inl (h.named o ho)
    · refine ⟨(hnamed _ _).mpr (Or.inr ⟨rfl, rfl⟩), ?_⟩
      intro o ho
      rcases mem_entered ho with ⟨o', ho', q, rfl⟩ | ⟨hlimit, -⟩
      · exact fresh_of_named hclient h.named o' ho'
      · exact absurd hmarket hlimit

variable (client price qty side) in
theorem seqCounter_entered_le (hcounters : ∀ client, (g.seqCounter client).toNat ≤
    g.nextArrivalSequence) (client' : ℕ) :
    ((entered g client side price qty).seqCounter client').toNat ≤ g.nextArrivalSequence + 1 := by
  change (Function.update g.seqCounter client (g.seqCounter client + 1) client').toNat ≤ _
  rcases eq_or_ne client' client with rfl | hne
  · rw [Function.update_self, UInt32.toNat_add]
    exact Nat.le_trans (Nat.mod_le _ _) (Nat.succ_le_succ (hcounters client'))
  · rw [Function.update_of_ne hne]
    exact Nat.le_succ_of_le (hcounters client')

theorem Follows.enter (h : Follows B A reqs g) (hA : 0 < A) (hB : B ≤ MARKETPRICE)
    (hclient : client < CLIENT_NO) (hside : side = .B ∨ side = .S)
    (hprice : price < B ∨ price = MARKETPRICE) (hroom : g.nextArrivalSequence < A)
    (hsmall : g.nextArrivalSequence + 1 < 2 ^ 32) :
    Follows B A
      (reqs ++ [⟨.ofNat client, .enter (enterOrder side (g.seqCounter client) price qty)⟩])
      (entered g client side price qty) := by
  have hcounter := h.counters client
  have hnext : (g.seqCounter client).toNat + 1 < 2 ^ 32 := by omega
  have hnamed := named_entered price qty side hclient hnext
  obtain ⟨id, later, hanswers, hlater⟩ := h.enter_answers client price qty side hA hB hroom
  apply h.snoc
  case hmsg => exact ⟨hside, hprice⟩
  case hopen => exact h.enter_openOrders hA hB hroom
  case harrivals => exact congrArg (· + 1) h.arrivals
  case hfresh =>
    rintro order ⟨⟩
    exact fresh_of_named hclient h.named
  case hnamed =>
    intro o ho
    apply (hnamed _ _).mpr
    rcases mem_entered ho with ⟨o', ho', q, rfl⟩ | ⟨-, q, rfl⟩
    · exact Or.inl (h.named o' ho')
    · exact Or.inr ⟨rfl, rfl⟩
  case hcounters => exact seqCounter_entered_le client price qty side h.counters
  case hroom =>
    have hopen := h.room
    have hlen := length_entered_le g client price qty side
    change _ ≤ g.nextArrivalSequence + 1
    omega
  case hpast => exact fun a ha => ha.entered hclient hnext
  case hnew => exact h.enter_past hA hB hclient hroom hnext
  case hacked =>
    refine ⟨id, later, hanswers, ?_⟩
    intro a ha
    rcases hlater a ha with ⟨_, _, _, _, _, _, rfl, -⟩ | hmarket
    · exact Or.inl rfl
    · exact Or.inr hmarket
  case hunmistaken =>
    -- an acceptance of the past has a smaller number
    rintro ⟨account, message⟩ hpast ⟨rfl, htaken⟩
    cases message with
    | accept v =>
      obtain ⟨-, hlt⟩ := hpast
      change v.userRefNum = g.seqCounter client at htaken
      change v.userRefNum < g.seqCounter (UInt32.ofNat client).toNat at hlt
      rw [toNat_client hclient, htaken] at hlt
      exact UInt32.lt_irrefl _ hlt
    | _ => exact htaken

end Enter

section Cancel

variable {i : ℕ} {o : SimOrder}

theorem Follows.find_eq (h : Follows B A reqs g) (hA : 0 < A) (ho : o ∈ g.openOrders) :
    (Indexed.run A {} reqs).find o.key = some o := by
  obtain ⟨s, rs, free, hagrees⟩ := h.agrees hA
  have hexact := h.exact
  rw [← h.openOrders] at hexact ho
  obtain ⟨r, hr, rfl⟩ := List.mem_map.mp (hagrees.orders.mem_iff.mp ho)
  exact (hagrees.map_resting hexact hr).2

theorem Follows.idxOf_eq (h : Follows B A reqs g) (ho : g.openOrders[i]? = some o) :
    g.openOrders.idxOf o = i := by
  obtain ⟨hi, rfl⟩ := List.getElem?_eq_some_iff.mp ho
  exact List.Nodup.idxOf_getElem (.of_map _ h.exact.nodup) i hi

theorem Follows.cancel_eq (h : Follows B A reqs g) (hA : 0 < A)
    (ho : g.openOrders[i]? = some o) :
    ((Indexed.run A {} reqs).process A (OrderBook.cancelMessage o.account o.userRefNum 0)).2 =
        [OrderBook.cancelled o.account o.userRefNum o.remainingQty 'U'] ∧
      ((Indexed.run A {} reqs).process A
        (OrderBook.cancelMessage o.account o.userRefNum 0)).1.toNaive =
          { (Indexed.run A {} reqs).toNaive with openOrders := swapRemove g.openOrders i } := by
  have hmem := List.mem_of_getElem? ho
  have hqty := (h.mem_openOrders hA hmem).2
  have hfind : (Indexed.run A {} reqs).find (orderKey o.account o.userRefNum) = some o :=
    h.find_eq hA hmem
  simp only [Indexed.process, OrderBook.cancelMessage, hfind, OrderBook.Naive.cancelMessages,
    OrderBook.Naive.cancel, if_neg (Nat.not_le_of_lt hqty), OrderBook.FlowGenerator.reduce,
    if_true, h.openOrders,
    h.idxOf_eq ho]
  exact ⟨rfl, trivial⟩

theorem Follows.cancel (h : Follows B A reqs g) (hA : 0 < A) (ho : g.openOrders[i]? = some o) :
    Follows B A (reqs ++ [OrderBook.cancelMessage o.account o.userRefNum 0])
      { g with openOrders := swapRemove g.openOrders i } := by
  have hmem := List.mem_of_getElem? ho
  obtain ⟨hanswers, hstate⟩ := h.cancel_eq hA ho
  have hperm := swapRemove_perm ho
  have hsubset : ∀ x ∈ swapRemove g.openOrders i, x ∈ g.openOrders :=
    fun x hx => hperm.mem_iff.mp (List.mem_cons_of_mem _ hx)
  apply h.snoc
  case hmsg => trivial
  case hopen => rw [hstate]
  case harrivals =>
    rw [hstate]
    exact h.arrivals
  case hfresh =>
    rintro order ⟨⟩
  case hnamed => exact fun x hx => h.named x (hsubset x hx)
  case hcounters => exact h.counters
  case hroom =>
    have hlen := hperm.length_eq
    have hroom := h.room
    rw [List.length_cons] at hlen
    change (swapRemove g.openOrders i).length ≤ g.nextArrivalSequence
    omega
  case hpast =>
    intro a ha
    unfold Past at ha ⊢
    split at ha
    · exact ha
    · exact ha
    · exact ⟨ha.1, fun x hx => ha.2 x (hsubset x hx)⟩
    · exact ha.elim
  case hnew =>
    rw [hanswers]
    intro a ha
    obtain rfl := List.mem_singleton.mp ha
    refine ⟨h.named o hmem, ?_⟩
    intro x hx hkey
    have hnodup := (hperm.map SimOrder.key).nodup_iff.mpr h.exact.nodup
    rw [List.map_cons, List.nodup_cons] at hnodup
    exact hnodup.1 (List.mem_map.mpr ⟨x, hx, hkey⟩)
  case hacked => exact ⟨o.remainingQty, (h.mem_openOrders hA hmem).2, hanswers⟩
  case hunmistaken =>
    -- an order that was taken off the book before is not open
    rintro ⟨account, message⟩ hpast ⟨rfl, htaken⟩
    cases message with
    | cancelled v => exact hpast.2 o hmem (OrderBook.orderKey_inj.mpr ⟨rfl, htaken.symm⟩)
    | cancelReject v => exact hpast
    | _ => exact htaken

end Cancel

end Follows

section Draws

variable {g g' : FlowGenerator} {order : Order} {client : ℕ} {side : SideEnum}
  {warm market crosses : Bool} {rng rng' : List ℕ} {price : ℕ}

/-- The prices that are drawn: a market order has none, and a limit order that must not cross
stays off the spread. -/
def Priced (side : SideEnum) (warm market : Bool) (price : ℕ) : Prop :=
  if market then price = MARKETPRICE
  else price ≤ 104 ∧
    (warm = true → (side = .B → price < SPREAD) ∧ (side ≠ .B → SPREAD < price))

theorem uniform_lt {n i : ℕ} (hn : 0 < n) (h : uniform n rng = some (i, rng')) : i < n := by
  cases rng with
  | nil => cases h
  | cons x rng =>
    obtain ⟨rfl, -⟩ := Prod.mk.inj (Option.some.inj h)
    exact Nat.mod_lt _ hn

theorem priceOffSpread_spec {prices : List ℕ}
    (h : priceOffSpread prices rng = some (price, rng')) :
    price ≠ SPREAD ∧ ∃ i < 5, price = prices.getD i 0 := by
  induction rng with
  | nil => cases h
  | cons x rng ih =>
    unfold priceOffSpread at h
    split at h
    · exact ih h
    · next hoff =>
      obtain ⟨rfl, -⟩ := Prod.mk.inj (Option.some.inj h)
      exact ⟨hoff, _, Nat.mod_lt _ (by decide), rfl⟩

theorem buy_prices : ∀ i < 5, BUY_PRICES.getD i 0 ≤ SPREAD := by decide

theorem sell_prices : ∀ i < 5, SPREAD ≤ SELL_PRICES.getD i 0 ∧ SELL_PRICES.getD i 0 ≤ 104 := by
  decide

theorem choosePrice_priced (h : choosePrice side warm market crosses rng = some (price, rng')) :
    Priced side warm market price := by
  unfold choosePrice at h
  unfold Priced
  cases market with
  | true =>
    obtain ⟨rfl, -⟩ := Prod.mk.inj (Option.some.inj h)
    rfl
  | false =>
    split at h
    · next hcross =>
      obtain ⟨⟨i, rng₁⟩, hdraw, heq⟩ := Option.map_eq_some_iff.mp h
      obtain ⟨rfl, -⟩ := Prod.mk.inj heq
      have hi := uniform_lt (by decide) hdraw
      refine ⟨?_, fun hwarm => absurd hwarm hcross.2.1⟩
      split
      · exact (sell_prices i hi).2
      · exact Nat.le_trans (buy_prices i hi) (by decide)
    · split at h
      · obtain ⟨hoff, i, hi, hprice⟩ := priceOffSpread_spec h
        split at hprice
        · next hbuy =>
          have hle := buy_prices i hi
          refine ⟨?_, fun _ => ⟨fun _ => ?_, fun hside => absurd hbuy hside⟩⟩
          · rw [hprice]
            exact Nat.le_trans hle (by decide)
          · exact Nat.lt_of_le_of_ne (hprice ▸ hle) hoff
        · next hsell =>
          have hle := sell_prices i hi
          refine ⟨hprice ▸ hle.2, fun _ => ⟨fun hside => absurd hside hsell, fun _ => ?_⟩⟩
          exact Nat.lt_of_le_of_ne (hprice ▸ hle.1) hoff.symm
      · next hlimit => exact absurd Bool.false_ne_true hlimit

theorem createEnterRequest_spec
    (h : g.createEnterRequest client side warm market crosses = some (order, g')) :
    ∃ rng price qty, Priced side warm market price ∧ qty < 2 ^ 32 ∧
      order = (⟨.ofNat client, enterBytes side (g.seqCounter client) price qty⟩,
        (UInt32.ofNat client).toNat) ∧
      g' = { entered g client side price qty with rng } := by
  obtain ⟨⟨i, rng₁⟩, hqty, h⟩ := Option.bind_eq_some_iff.mp h
  obtain ⟨⟨price, rng₂⟩, hprice, h⟩ := Option.bind_eq_some_iff.mp h
  obtain ⟨rfl, rfl⟩ := Prod.mk.inj (Option.some.inj h)
  have hi := uniform_lt (by decide) hqty
  have hqtys : ∀ i < 5, QTYS.getD i 0 < 2 ^ 32 := by decide
  exact ⟨rng₂, price, _, choosePrice_priced hprice, hqtys i hi, rfl, rfl⟩

theorem createCancelOrder_spec (h : g.createCancelOrder = some (order, g')) :
    ∃ (rng : List ℕ) (i : ℕ) (o : SimOrder), g.openOrders[i]? = some o ∧
      order = (⟨o.account, cancelBytes o.userRefNum⟩, o.account.toNat) ∧
      g' = { g with rng, openOrders := swapRemove g.openOrders i } := by
  obtain ⟨⟨i, rng⟩, -, h⟩ := Option.bind_eq_some_iff.mp h
  obtain ⟨o, ho, h⟩ := Option.bind_eq_some_iff.mp h
  obtain ⟨rfl, rfl⟩ := Prod.mk.inj (Option.some.inj h)
  exact ⟨rng, i, o, ho, rfl, rfl⟩

end Draws

section Warm

variable {B A : ℕ} {g : FlowGenerator} {reqs : List OrderBook.InboundMessage}
  {client price qty : ℕ} {side : SideEnum}

def OffSpread (side : SideEnum) (price : ℕ) : Prop :=
  side = .B ∧ price < SPREAD ∨ side = .S ∧ SPREAD < price

def Quiet (g : FlowGenerator) : Prop := ∀ o ∈ g.openOrders, OffSpread o.side o.price

theorem not_crosses {x y : SimOrder} (hx : OffSpread x.side x.price)
    (hy : OffSpread y.side y.price) (hlimit : x.price ≠ MARKETPRICE) : x.crosses y = false := by
  unfold SimOrder.crosses
  rcases hx with ⟨hx, hxp⟩ | ⟨hx, hxp⟩ <;> rcases hy with ⟨hy, hyp⟩ | ⟨hy, hyp⟩
  · simp [hx, hy]
  · simp only [hx, hy, hlimit]
    simp
    omega
  · simp only [hx, hy, hlimit]
    simp
    omega
  · simp [hx, hy]

theorem Quiet.applyEnter_eq (h : Quiet g) {incoming : SimOrder}
    (hoff : OffSpread incoming.side incoming.price) (hlimit : incoming.price ≠ MARKETPRICE) :
    OrderBook.FlowGenerator.applyEnter SimOrder.crosses incoming g.openOrders =
      ⟨incoming.remainingQty, g.openOrders, []⟩ := by
  apply OrderBook.matchLoop_invariant
    (P := fun m => m = ⟨incoming.remainingQty, g.openOrders, []⟩)
  · rintro m i r rfl - hbest
    obtain ⟨hr, hcross, -⟩ := OrderBook.best_spec hbest
    rw [not_crosses hoff (h r (List.mem_of_getElem? hr)) hlimit] at hcross
    cases hcross
  · rfl

theorem Quiet.entered (h : Quiet g) (hoff : OffSpread side price) :
    Quiet (entered g client side price qty) := by
  intro o ho
  rcases mem_entered ho with ⟨o', ho', q, rfl⟩ | ⟨-, q, rfl⟩
  · exact h o' ho'
  · exact hoff

variable (client qty) in
theorem Follows.enter_quiet (h : Follows B A reqs g) (hA : 0 < A) (hB : B ≤ MARKETPRICE)
    (hroom : g.nextArrivalSequence < A) (hquiet : Quiet g) (hoff : OffSpread side price)
    (hlimit : price ≠ MARKETPRICE) :
    ∃ id, ((Indexed.run A {} reqs).process A ⟨.ofNat client,
      .enter (enterOrder side (g.seqCounter client) price qty)⟩).2 =
        [⟨.ofNat client, Engine.accepted
          (enterOrder side (g.seqCounter client) price qty) id⟩] := by
  refine ⟨_, congrArg (List.cons _) (?_ : OrderBook.Naive.outcome .. = [])⟩
  have hopen := h.room
  unfold OrderBook.Naive.outcome
  rw [h.matching_eq hA hB, hquiet.applyEnter_eq hoff hlimit]
  change OrderBook.remainderMessages (.ofNat client) (g.seqCounter client) qty
    (OrderBook.remainder A (enterOrder side (g.seqCounter client) price qty)
      ⟨qty, g.openOrders, []⟩) = []
  rw [remainder_of_room (Nat.lt_of_le_of_lt hopen hroom)]
  split
  · rfl
  · split
    · next hmarket => exact absurd hmarket hlimit
    · rfl

end Warm

section Runs

variable {B A : ℕ} {g g' : FlowGenerator} {req : OrderBook.InboundMessage} {order : Order}
  {client initialWarmOrders benchOrdersNo : ℕ} {side : SideEnum} {warm market crosses : Bool}

/-- The messages of the flow are requests that the engine serves, and it follows them. -/
structure Serves (B A : ℕ) (g : FlowGenerator) : Prop where
  follows : Follows B A (g.messages.filterMap wanted) g
  serviceable : ∀ msg ∈ g.messages, Serviceable B msg
  arrivals : g.nextArrivalSequence ≤ g.messages.length
  clients : ∀ order ∈ g.warmBook ++ g.benchOrders,
    order.2 = order.1.account.toNat ∧ order.2 < CLIENT_NO

theorem Follows.relist {reqs : List OrderBook.InboundMessage} (h : Follows B A reqs g)
    (rng : List ℕ) (warmBook benchOrders : List Order) :
    Follows B A reqs { g with rng, warmBook, benchOrders } :=
  ⟨h.admissible, h.openOrders, h.arrivals, h.exact, h.named, h.counters, h.room, h.past, h.acked,
    h.unmistaken⟩

theorem messages_snoc
    (horders : g'.warmBook ++ g'.benchOrders = (g.warmBook ++ g.benchOrders) ++ [order]) :
    g'.messages = g.messages ++ [order.1] := by
  rw [messages, horders, List.map_append]
  rfl

theorem requests_snoc
    (horders : g'.warmBook ++ g'.benchOrders = (g.warmBook ++ g.benchOrders) ++ [order])
    (hwanted : wanted order.1 = some req) :
    g'.messages.filterMap wanted = g.messages.filterMap wanted ++ [req] := by
  rw [messages_snoc horders, List.filterMap_append, List.filterMap_cons, hwanted,
    List.filterMap_nil]

theorem Serves.snoc (h : Serves B A g)
    (horders : g'.warmBook ++ g'.benchOrders = (g.warmBook ++ g.benchOrders) ++ [order])
    (hclient : order.2 = order.1.account.toNat ∧ order.2 < CLIENT_NO) (hwhole : Whole order.1)
    (hwanted : wanted order.1 = some req)
    (hfollows : Follows B A (g.messages.filterMap wanted ++ [req]) g')
    (harrivals : g'.nextArrivalSequence ≤ g.nextArrivalSequence + 1) : Serves B A g' := by
  constructor
  case follows => exact requests_snoc horders hwanted ▸ hfollows
  case serviceable =>
    intro msg hmsg
    rw [messages_snoc horders] at hmsg
    rcases List.mem_append.mp hmsg with hmsg | hmsg
    · exact h.serviceable msg hmsg
    · obtain rfl := List.mem_singleton.mp hmsg
      refine ⟨hwhole, ?_⟩
      intro r hr
      obtain rfl := Option.some.inj (hwanted.symm.trans hr)
      exact hfollows.admissible _ (by simp)
  case arrivals =>
    have harr := h.arrivals
    rw [messages_snoc horders, List.length_append, List.length_singleton]
    omega
  case clients =>
    intro order' horder'
    rw [horders] at horder'
    rcases List.mem_append.mp horder' with horder' | horder'
    · exact h.clients order' horder'
    · exact List.mem_singleton.mp horder' ▸ hclient

theorem wanted_create {g₀ : FlowGenerator} (hmarket : 104 < B) (hB : B ≤ MARKETPRICE)
    (h : g.createEnterRequest client side warm market crosses = some (order, g₀)) :
    ∃ rng price qty, Priced side warm market price ∧ (price < B ∨ price = MARKETPRICE) ∧
      order.2 = order.1.account.toNat ∧ order.2 = (UInt32.ofNat client).toNat ∧
      Whole order.1 ∧ wanted order.1 =
        some ⟨.ofNat client, .enter (enterOrder side (g.seqCounter client) price qty)⟩ ∧
      g₀ = { entered g client side price qty with rng } := by
  obtain ⟨rng, price, qty, hpriced, hqty, rfl, rfl⟩ := createEnterRequest_spec h
  have hprice : price < B ∨ price = MARKETPRICE := by
    unfold Priced at hpriced
    split at hpriced
    · exact Or.inr hpriced
    · exact Or.inl (Nat.lt_of_le_of_lt hpriced.1 hmarket)
  have hlarge : MARKETPRICE < 2 ^ 64 := by decide
  exact ⟨rng, price, qty, hpriced, hprice, rfl, rfl, whole_enterBytes,
    wanted_enterBytes (by omega) hqty, rfl⟩

theorem sideOf_cases (coin : ℕ) : sideOf coin = .B ∨ sideOf coin = .S := by
  unfold sideOf
  split
  · exact Or.inl rfl
  · exact Or.inr rfl

theorem priced_offSpread {price coin : ℕ} (h : Priced (sideOf coin) true false price) :
    OffSpread (sideOf coin) price ∧ price ≠ MARKETPRICE := by
  obtain ⟨hle, hoff⟩ := h
  have hmarket : 104 < MARKETPRICE := by decide
  refine ⟨?_, Nat.ne_of_lt (Nat.lt_of_le_of_lt hle hmarket)⟩
  rcases sideOf_cases coin with hside | hside
  · exact Or.inl ⟨hside, (hoff rfl).1 hside⟩
  · exact Or.inr ⟨hside, (hoff rfl).2 (by rw [hside]; decide)⟩

def Accepted (msg : OrderBook.InboundMessage) (answers : List OrderBook.OutboundMessage) : Prop :=
  ∃ order id, msg.message = .enter order ∧ answers = [⟨msg.account, Engine.accepted order id⟩]

structure Warms (A : ℕ) (g : FlowGenerator) : Prop where
  first : g.benchOrders = []
  quiet : Quiet g
  accepted : List.Forall₂ Accepted (g.messages.filterMap wanted)
    (Indexed.outputs A {} (g.messages.filterMap wanted))

theorem Warms.snoc (h : Warms A g)
    (horders : g'.warmBook ++ g'.benchOrders = (g.warmBook ++ g.benchOrders) ++ [order])
    (hwanted : wanted order.1 = some req) (hfirst : g'.benchOrders = []) (hquiet : Quiet g')
    (haccepted : Accepted req
      ((Indexed.run A {} (g.messages.filterMap wanted)).process A req).2) : Warms A g' := by
  constructor
  case first => exact hfirst
  case quiet => exact hquiet
  case accepted =>
    rw [requests_snoc horders hwanted, outputs_snoc]
    exact List.rel_append h.accepted (.cons haccepted .nil)

section Rounds

variable (hA : 0 < A) (hmarket : 104 < B) (hB : B ≤ MARKETPRICE)

include hA hmarket hB

theorem Serves.create {g₀ : FlowGenerator} {rng : List ℕ} {coin : ℕ} {warmBook benchOrders}
    (h : Serves B A g) (hclient : client < CLIENT_NO) (hroom : g.messages.length < A)
    (hsmall : g.messages.length + 1 < 2 ^ 32)
    (hcreate : { g with rng }.createEnterRequest client (sideOf coin) warm market crosses =
      some (order, g₀))
    (horders : warmBook ++ benchOrders = (g.warmBook ++ g.benchOrders) ++ [order]) :
    Serves B A { g₀ with warmBook, benchOrders } ∧
      g₀.warmBook = g.warmBook ∧ g₀.benchOrders = g.benchOrders := by
  obtain ⟨rng', price, qty, -, hprice, haccount, hsame, hwhole, hwanted, rfl⟩ :=
    wanted_create hmarket hB hcreate
  have harr := h.arrivals
  rw [toNat_client hclient] at hsame
  refine ⟨h.snoc horders ⟨haccount, hsame ▸ hclient⟩ hwhole hwanted ?_ (Nat.le_refl _), rfl, rfl⟩
  exact (h.follows.enter hA hB hclient (sideOf_cases coin) hprice (by omega) (by omega)).relist
    _ _ _

theorem warmRound_spec (h : Serves B A g) (hwarm : Warms A g)
    (hroom : g.warmBook.length < A) (hsmall : g.warmBook.length + 1 < 2 ^ 32)
    (hround : g.warmRound = some g') :
    Serves B A g' ∧ Warms A g' ∧ g'.warmBook.length = g.warmBook.length + 1 := by
  obtain ⟨⟨coin, rng₁⟩, -, hround⟩ := Option.bind_eq_some_iff.mp hround
  obtain ⟨⟨client, rng₂⟩, hclient, hround⟩ := Option.bind_eq_some_iff.mp hround
  obtain ⟨⟨order, g₀⟩, hcreate, hround⟩ := Option.bind_eq_some_iff.mp hround
  obtain rfl := Option.some.inj hround
  have hlength : g.messages.length = g.warmBook.length := by
    rw [messages, hwarm.first, List.append_nil, List.length_map]
  have horders : (g.warmBook ++ [order]) ++ g.benchOrders =
      (g.warmBook ++ g.benchOrders) ++ [order] := by
    rw [hwarm.first, List.append_nil, List.append_nil]
  obtain ⟨hserves, -, -⟩ := h.create hA hmarket hB (uniform_lt (by decide) hclient)
    (by omega) (by omega) hcreate horders
  obtain ⟨rng', price, qty, hpriced, hprice, -, -, hwhole, hwanted, rfl⟩ :=
    wanted_create hmarket hB hcreate
  obtain ⟨hoff, hlimit⟩ := priced_offSpread hpriced
  obtain ⟨id, hanswers⟩ := h.follows.enter_quiet client qty hA hB
    (Nat.lt_of_le_of_lt h.arrivals (by omega)) hwarm.quiet hoff hlimit
  refine ⟨hserves, ?_, List.length_append⟩
  exact hwarm.snoc horders hwanted hwarm.first (hwarm.quiet.entered hoff)
    ⟨_, id, rfl, hanswers⟩

theorem warmUp_spec {n : ℕ} (h : Serves B A g) (hwarm : Warms A g)
    (hroom : g.warmBook.length + n ≤ A) (hsmall : g.warmBook.length + n < 2 ^ 32)
    (hrun : warmUp n g = some g') :
    Serves B A g' ∧ Warms A g' ∧ g'.warmBook.length = g.warmBook.length + n := by
  induction n generalizing g with
  | zero =>
    obtain rfl := Option.some.inj hrun
    exact ⟨h, hwarm, rfl⟩
  | succ n ih =>
    obtain ⟨g₁, hround, hrun⟩ := Option.bind_eq_some_iff.mp hrun
    obtain ⟨h₁, hwarm₁, hlen₁⟩ := warmRound_spec hA hmarket hB h hwarm (by omega) (by omega) hround
    obtain ⟨h', hwarm', hlen'⟩ := ih h₁ hwarm₁ (by omega) (by omega) hrun
    exact ⟨h', hwarm', by omega⟩

omit hmarket hB in
theorem Serves.cancel {g₀ : FlowGenerator} {rng : List ℕ} {warmBook benchOrders}
    (h : Serves B A g) (hcreate : { g with rng }.createCancelOrder = some (order, g₀))
    (horders : warmBook ++ benchOrders = (g.warmBook ++ g.benchOrders) ++ [order]) :
    Serves B A { g₀ with warmBook, benchOrders } ∧ g₀.warmBook = g.warmBook ∧
      g₀.benchOrders = g.benchOrders := by
  obtain ⟨rng', i, o, ho, rfl, rfl⟩ := createCancelOrder_spec hcreate
  have hclient := (h.follows.named o (List.mem_of_getElem? ho)).1
  refine ⟨h.snoc horders ⟨rfl, hclient⟩ whole_cancelBytes wanted_cancelBytes ?_ (Nat.le_succ _),
    rfl, rfl⟩
  exact (h.follows.cancel hA ho).relist _ _ _

theorem benchRound_spec (h : Serves B A g) (hroom : g.messages.length < A)
    (hsmall : g.messages.length + 1 < 2 ^ 32) (hround : g.benchRound = some g') :
    Serves B A g' ∧ g'.warmBook = g.warmBook ∧
      (g'.benchOrders.length = g.benchOrders.length ∨
        g'.benchOrders.length = g.benchOrders.length + 1) := by
  have horders (order : Order) : g.warmBook ++ (g.benchOrders ++ [order]) =
      (g.warmBook ++ g.benchOrders) ++ [order] := (List.append_assoc ..).symm
  -- every request is put behind the others
  have hpush {g₀ : FlowGenerator} {order : Order} (h₀ : Serves B A { g₀ with
      warmBook := g.warmBook
      benchOrders := g.benchOrders ++ [order] } ∧
        g₀.warmBook = g.warmBook ∧ g₀.benchOrders = g.benchOrders) :
      Serves B A { g₀ with benchOrders := g₀.benchOrders ++ [order] } ∧
        g₀.warmBook = g.warmBook ∧
        ((g₀.benchOrders ++ [order]).length = g.benchOrders.length ∨
          (g₀.benchOrders ++ [order]).length = g.benchOrders.length + 1) := by
    obtain ⟨hserves, hbook, hbench⟩ := h₀
    rw [← hbook, ← hbench] at hserves
    rw [hbench]
    exact ⟨hbench ▸ hserves, hbook, Or.inr List.length_append⟩
  obtain ⟨⟨orderType, rng₁⟩, -, hround⟩ := Option.bind_eq_some_iff.mp hround
  dsimp only at hround
  split at hround
  · obtain ⟨⟨coin, rng₂⟩, -, hround⟩ := Option.bind_eq_some_iff.mp hround
    obtain ⟨⟨client, rng₃⟩, hclient, hround⟩ := Option.bind_eq_some_iff.mp hround
    obtain ⟨⟨percent, rng₄⟩, -, hround⟩ := Option.bind_eq_some_iff.mp hround
    obtain ⟨⟨order, g₀⟩, hcreate, hround⟩ := Option.bind_eq_some_iff.mp hround
    obtain rfl := Option.some.inj hround
    exact hpush (h.create hA hmarket hB (uniform_lt (by decide) hclient) hroom hsmall hcreate
      (horders order))
  · split at hround
    · obtain ⟨⟨coin, rng₂⟩, -, hround⟩ := Option.bind_eq_some_iff.mp hround
      obtain ⟨⟨client, rng₃⟩, hclient, hround⟩ := Option.bind_eq_some_iff.mp hround
      obtain ⟨⟨order, g₀⟩, hcreate, hround⟩ := Option.bind_eq_some_iff.mp hround
      obtain rfl := Option.some.inj hround
      exact hpush (h.create hA hmarket hB (uniform_lt (by decide) hclient) hroom hsmall hcreate
        (horders order))
    · split at hround
      · obtain rfl := Option.some.inj hround
        exact ⟨⟨h.follows.relist _ _ _, h.serviceable, h.arrivals, h.clients⟩, rfl, Or.inl rfl⟩
      · obtain ⟨⟨order, g₀⟩, hcreate, hround⟩ := Option.bind_eq_some_iff.mp hround
        obtain rfl := Option.some.inj hround
        exact hpush (h.cancel hA hcreate (horders order))

theorem bench_spec {n fuel : ℕ} (h : Serves B A g) (hlen : g.benchOrders.length ≤ n)
    (hroom : g.warmBook.length + n ≤ A) (hsmall : g.warmBook.length + n < 2 ^ 32)
    (hrun : bench n fuel g = some g') :
    Serves B A g' ∧ g'.warmBook = g.warmBook ∧ g'.benchOrders.length = n := by
  induction fuel generalizing g with
  | zero =>
    unfold bench at hrun
    split at hrun
    · next hdone =>
      obtain rfl := Option.some.inj hrun
      exact ⟨h, rfl, Nat.le_antisymm hlen hdone⟩
    · cases hrun
  | succ fuel ih =>
    unfold bench at hrun
    split at hrun
    · next hdone =>
      obtain rfl := Option.some.inj hrun
      exact ⟨h, rfl, Nat.le_antisymm hlen hdone⟩
    · next hmore =>
      obtain ⟨g₁, hround, hrun⟩ := Option.bind_eq_some_iff.mp hrun
      have hmessages : g.messages.length = g.warmBook.length + g.benchOrders.length := by
        rw [messages, List.length_map, List.length_append]
      obtain ⟨h₁, hbook, hlen₁⟩ := benchRound_spec hA hmarket hB h (by omega) (by omega) hround
      obtain ⟨h', hbook', hlen'⟩ := ih h₁ (by omega) (hbook ▸ hroom) (hbook ▸ hsmall) hrun
      exact ⟨h', hbook'.trans hbook, hlen'⟩

end Rounds

theorem generate_spec (hA : 0 < A) (hmarket : 104 < B) (hB : B ≤ MARKETPRICE)
    (hroom : initialWarmOrders + benchOrdersNo ≤ A)
    (hsmall : initialWarmOrders + benchOrdersNo < 2 ^ 32) {draws : List ℕ}
    (h : generate initialWarmOrders benchOrdersNo draws = some g) :
    Serves B A g ∧ g.warmBook.length = initialWarmOrders ∧
      g.benchOrders.length = benchOrdersNo ∧
      List.Forall₂ Accepted ((g.warmBook.map Prod.fst).filterMap wanted)
        (Indexed.outputs A {} ((g.warmBook.map Prod.fst).filterMap wanted)) := by
  obtain ⟨g₁, hwarm, hbench⟩ := Option.bind_eq_some_iff.mp h
  have hserves : Serves B A { rng := draws } := by
    constructor
    case follows => exact follows_init draws
    case serviceable =>
      rintro msg ⟨⟩
    case arrivals => exact Nat.le_refl 0
    case clients =>
      rintro order ⟨⟩
  have hquiet : Warms A { rng := draws } := by
    constructor
    case first => rfl
    case quiet =>
      rintro o ⟨⟩
    case accepted => exact .nil
  obtain ⟨h₁, hwarm₁, hlen₁⟩ := warmUp_spec hA hmarket hB hserves hquiet
    (by simp only [List.length_nil]; omega) (by simp only [List.length_nil]; omega) hwarm
  simp only [List.length_nil, Nat.zero_add] at hlen₁
  have hfirst : g₁.benchOrders.length = 0 := by
    rw [hwarm₁.first]
    rfl
  obtain ⟨h', hbook, hlen⟩ :=
    bench_spec hA hmarket hB h₁ (by omega) (by omega) (by omega) hbench
  have haccepted := hwarm₁.accepted
  rw [messages, hwarm₁.first, List.append_nil, ← hbook] at haccepted
  exact ⟨h', hbook ▸ hlen₁, hlen, haccepted⟩

/-- A generated flow against the engine, whatever the seed: every message is a request that is
served, the book is warmed without a trade, every order is accepted first and every cancel takes
an order off the book, and the open orders of the generator are those that rest at the end. -/
theorem generate_served (hA : 0 < A) (hmarket : 104 < B) (hB : B ≤ MARKETPRICE)
    (hroom : initialWarmOrders + benchOrdersNo ≤ A)
    (hsmall : initialWarmOrders + benchOrdersNo < 2 ^ 32) {draws : List ℕ}
    (h : generate initialWarmOrders benchOrdersNo draws = some g) :
    g.warmBook.length = initialWarmOrders ∧ g.benchOrders.length = benchOrdersNo ∧
      (∀ msg ∈ g.messages, Serviceable B msg) ∧
      ∃ (s : Engine B A) (warm bench : List (List OrderBook.OutboundMessage)),
        Engine.run (g.messages.filterMap wanted) = .ok s ∧
        Engine.outputs ({} : Engine B A) (g.messages.filterMap wanted) = .ok (warm ++ bench) ∧
        List.Forall₂ Accepted ((g.warmBook.map Prod.fst).filterMap wanted) warm ∧
        List.Forall₂ Acked ((g.benchOrders.map Prod.fst).filterMap wanted) bench ∧
        (s.resting.map (·.2.openOrder)).Perm (g.openOrders.map SimOrder.openOrder) := by
  obtain ⟨hserves, hwarm, hbench, haccepted⟩ := generate_spec hA hmarket hB hroom hsmall h
  obtain ⟨s, rs, free, hrun, hagrees, -, houts⟩ :=
    OrderBook.run_agrees (B := B) hA hserves.follows.admissible
  have hopen := hagrees.openOrders_perm
  have hacked := hserves.follows.acked
  rw [hserves.follows.openOrders] at hopen
  have hreqs : g.messages.filterMap wanted =
      (g.warmBook.map Prod.fst).filterMap wanted ++
        (g.benchOrders.map Prod.fst).filterMap wanted := by
    rw [messages, List.map_append, List.filterMap_append]
  rw [hreqs, OrderBook.outputs_append] at hacked
  rw [hreqs, OrderBook.outputs_append] at houts
  refine ⟨hwarm, hbench, hserves.serviceable, s, _, _, hrun, hreqs ▸ houts, haccepted, ?_, hopen⟩
  have hdrop := List.forall₂_drop ((g.warmBook.map Prod.fst).filterMap wanted).length hacked
  rwa [List.drop_left, haccepted.length_eq, List.drop_left] at hdrop

/-- Two warming orders, an order that crosses, a cancel, a market order and a limit order. -/
def someDraws : List ℕ :=
  [0, 1, 2, 0, 1, 2, 3, 4] ++ [10, 0, 3, 2, 1, 4] ++ [60, 0] ++ [98, 1, 4, 0] ++
    [20, 1, 5, 50, 0, 1]

theorem generate_served_someDraws : ∃ g : FlowGenerator, generate 2 4 someDraws = some g ∧
    g.warmBook.length = 2 ∧ g.benchOrders.length = 4 ∧
      (∀ msg ∈ g.messages, Serviceable 105 msg) ∧
      ∃ (s : Engine 105 6) (warm bench : List (List OrderBook.OutboundMessage)),
        Engine.run (g.messages.filterMap wanted) = .ok s ∧
        Engine.outputs ({} : Engine 105 6) (g.messages.filterMap wanted) = .ok (warm ++ bench) ∧
        List.Forall₂ Accepted ((g.warmBook.map Prod.fst).filterMap wanted) warm ∧
        List.Forall₂ Acked ((g.benchOrders.map Prod.fst).filterMap wanted) bench ∧
        (s.resting.map (·.2.openOrder)).Perm (g.openOrders.map SimOrder.openOrder) := by
  obtain ⟨g, hg⟩ := Option.isSome_iff_exists.mp
    (by decide +kernel : (generate 2 4 someDraws).isSome = true)
  exact ⟨g, hg, generate_served (by decide) (by decide) (by decide) (by decide) (by decide) hg⟩

end Runs

end LowLevel.Trading.FlowGenerator
